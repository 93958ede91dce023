import Xv6.Volume.Ownership

namespace Xv6.Volume

open Data Function Finset List Nat UInt32 Dinode

/-! The bytes of a file, through the places of its blocks. -/

variable {sb : Superblock}

def Mount.byte (v : Mount sb) (i : Fin sb.ninodes) (x : Nat) : UInt8 := v.disk (v.pointer i (slotAt (x / BSIZE))) (x % BSIZE)

def Mount.contents (v : Mount sb) (i : Fin sb.ninodes) : List UInt8 := slice (v.byte i) 0 (v.inode i).size.toNat

/-- The byte has a block. -/
def Mount.Mapped (v : Mount sb) (i : Fin sb.ninodes) (x : Nat) : Prop :=
  x < MAXFILE * BSIZE ∧ v.pointer i (slotAt (x / BSIZE)) ≠ 0

/-- The places that a transfer of `n` bytes at `off` goes through. -/
def span (off n : Nat) : Finset Slot :=
  ((Finset.range MAXFILE).filter fun bn => 0 < n ∧ bn * BSIZE < off + n ∧ off < (bn + 1) * BSIZE).biUnion route

section

variable {off n bn : Nat}

theorem chunk_pos (off : Nat) (some : n ≠ 0) : 0 < chunk off n := by
  have : off % BSIZE < BSIZE := mod_lt _ (by decide)
  unfold chunk
  omega

theorem chunk_le (off n : Nat) : chunk off n ≤ n := Nat.min_le_left ..

theorem chunk_fits (off n : Nat) : off % BSIZE + chunk off n ≤ BSIZE := by
  have : off % BSIZE < BSIZE := mod_lt _ (by decide)
  unfold chunk
  omega

theorem chunk_index {t : Nat} (low : t < chunk off n) : (off + t) / BSIZE = off / BSIZE := by
  have fits := chunk_fits off n
  simp only [BSIZE] at fits ⊢
  omega

theorem index_lt (bound : off + n ≤ MAXFILE * BSIZE) (some : n ≠ 0) : off / BSIZE < MAXFILE := by
  rw [Nat.div_lt_iff_lt_mul (by decide)]
  omega

theorem route_subset_span (some : n ≠ 0) (low : bn * BSIZE < off + n) (high : off < (bn + 1) * BSIZE) (bound : bn < MAXFILE) :
    route bn ⊆ span off n := by
  refine Finset.subset_biUnion_of_mem route ?_
  rw [Finset.mem_filter, Finset.mem_range]
  exact ⟨bound, Nat.pos_of_ne_zero some, low, high⟩

theorem route_subset_span_self (bound : off + n ≤ MAXFILE * BSIZE) (some : n ≠ 0) : route (off / BSIZE) ⊆ span off n := by
  refine route_subset_span some ?_ ?_ (index_lt bound some)
  · have := div_mul_le_self off BSIZE
    omega
  · simp only [BSIZE]
    omega

theorem span_subset : span (off + chunk off n) (n - chunk off n) ⊆ span off n := by
  refine Finset.biUnion_subset_biUnion_of_subset_left _ fun bn member => ?_
  rw [Finset.mem_filter] at member ⊢
  exact ⟨member.1, by omega, by omega, by omega⟩

theorem slotAt_direct (direct : bn < NDIRECT) : slotAt bn = .direct ⟨bn, direct⟩ := dif_pos direct

theorem slotAt_entry (beyond : ¬ bn < NDIRECT) (bound : bn < MAXFILE) :
    slotAt bn = .entry ⟨bn - NDIRECT, entry_lt beyond bound⟩ := by
  rw [slotAt, dif_neg beyond, dif_pos]

theorem slotAt_ne_indirect (bound : bn < MAXFILE) : slotAt bn ≠ .indirect := by
  by_cases direct : bn < NDIRECT
  · rw [slotAt_direct direct]
    simp
  · rw [slotAt_entry direct bound]
    simp

theorem slotAt_inj {other : Nat} (bound : bn < MAXFILE) (bound' : other < MAXFILE) (same : slotAt bn = slotAt other) :
    bn = other := by
  by_cases direct : bn < NDIRECT <;> by_cases direct' : other < NDIRECT
  · rw [slotAt_direct direct, slotAt_direct direct'] at same
    simpa using same
  · rw [slotAt_direct direct, slotAt_entry direct' bound'] at same
    contradiction
  · rw [slotAt_entry direct bound, slotAt_direct direct'] at same
    contradiction
  · rw [slotAt_entry direct bound, slotAt_entry direct' bound'] at same
    simp only [Slot.entry.injEq, Fin.mk.injEq] at same
    omega

end

section

variable {v v' w : Mount sb} {i j : Fin sb.ninodes} {off n x bn b : Nat} {new : Finset Slot} {slots : Finset Slot}
    {s : Slot}

theorem Grows.pointer_eq (grows : Grows i new v v') (present : v.pointer j s ≠ 0) : v'.pointer j s = v.pointer j s := by
  refine grows.pointers j s fun inside => present ?_
  rw [inside.1]
  exact (grows.fresh s inside.2).1

theorem Fills.pointer_eq (fills : Fills i slots v v') (present : v.pointer j s ≠ 0) :
    v'.pointer j s = v.pointer j s := by
  obtain ⟨-, _, -, grows⟩ := fills
  exact grows.pointer_eq present

theorem Fills.mapped (fills : Fills i slots v v') (mapped : v.Mapped j x) : v'.Mapped j x := by
  refine ⟨mapped.1, ?_⟩
  rw [fills.pointer_eq mapped.2]
  exact mapped.2

theorem Mount.Mapped.index (mapped : v.Mapped i x) : x / BSIZE < MAXFILE := by
  rw [Nat.div_lt_iff_lt_mul (by decide)]
  exact mapped.1

theorem Loads.byte (loads : Loads i slots s v b w) (mapped : v.Mapped j x) :
    w.byte j x = v.byte j x := by
  obtain ⟨fills, keeps, -⟩ := loads
  rw [Mount.byte, fills.pointer_eq mapped.2, keeps j _ (slotAt_ne_indirect mapped.index) mapped.2, Mount.byte]

theorem Placed.write (placed : Placed v) (bound : bn < MAXFILE) (block : Bytes) (j : Fin sb.ninodes) (s : Slot) :
    (v.write (v.pointer i (slotAt bn)) block).pointer j s = v.pointer j s := by
  have inode : (v.write (v.pointer i (slotAt bn)) block).inode = v.inode := rfl
  refine Mount.pointer_congr inode (fun k there => ?_) j s
  have apart : v.pointer k .indirect ≠ v.pointer i (slotAt bn) := fun same =>
    slotAt_ne_indirect bound (placed.exclusive k i .indirect (slotAt bn) there same).2.symm
  exact update_of_ne apart ..

theorem Placed.congr (placed : Placed v) (same : ∀ j s, v'.pointer j s ≠ 0 → v'.pointer j s = v.pointer j s) : Placed v' := by
  refine ⟨fun j k s t present equal => ?_, fun j s present => ?_⟩
  · have there : v'.pointer k t ≠ 0 := equal ▸ present
    rw [same j s present, same k t there] at equal
    exact placed.exclusive j k s t (same j s present ▸ present) equal
  · have before := same j s present
    rw [before] at present ⊢
    exact placed.inside j s present

theorem Owned.write (owned : Owned v) (bound : bn < MAXFILE) (present : v.pointer i (slotAt bn) ≠ 0) (block : Bytes) :
    Fills i ∅ v (v.write (v.pointer i (slotAt bn)) block) := by
  have inside := owned.inside i _ present
  have pointer := owned.toPlaced.write (i := i) bound block
  have used {c : Nat} (small : c < sb.size) :
      inUse sb (v.write (v.pointer i (slotAt bn)) block).disk c = inUse sb v.disk c := by
    have := bblock_lt small
    exact inUse_congr (update_of_ne (by omega) ..)
  refine ⟨⟨owned.toPlaced.congr fun k s _ => pointer k s, fun k s => ?_, fun c below => ?_⟩, ∅, Finset.Subset.refl _,
    fun _ _ => rfl, ⟨_, rfl⟩, fun k => ?_, fun k s _ => pointer k s, by simp, ?_, id⟩
  · rw [pointer]
    intro there
    rw [used (owned.inside k s there).2]
    exact owned.used k s there
  · rw [used (by omega)]
    exact owned.kept c below
  · have low : sb.iblock k < sb.bmapstart := iblock_lt k
    have := bmapstart_lt_dataStart sb
    exact dinode_congr (update_of_ne (by omega) ..)
  · have same : freeBlocks sb (v.write (v.pointer i (slotAt bn)) block).disk = freeBlocks sb v.disk :=
      filter_congr fun c member => by rw [used (Finset.mem_range.mp member)]
    rw [same, card_empty, Nat.add_zero]

theorem bmap_mapped (bound : bn < MAXFILE) (present : v.pointer i (slotAt bn) ≠ 0) :
    Ends (bmap i bn) v (fun b v' => b = v.pointer i (slotAt bn) ∧ v' = v) fun _ => False := by
  unfold bmap
  by_cases direct : bn < NDIRECT
  · rw [slotAt_direct direct] at present ⊢
    rw [if_pos direct]
    have there : (v.inode i).addr bn ≠ 0 := present
    refine .bind (.get ?_)
    rw [if_neg there]
    exact .pure ⟨rfl, rfl⟩
  · have below := entry_lt direct bound
    rw [slotAt_entry direct bound] at present ⊢
    rw [if_neg direct, if_pos below]
    have there : (v.inode i).addr NDIRECT ≠ 0 := fun none => present (if_pos none)
    have here : v.pointer i (.entry ⟨bn - NDIRECT, below⟩) =
        (entry (v.disk ((v.inode i).addr NDIRECT)) (bn - NDIRECT)).toNat := if_neg there
    refine .bind (.bind (.get ?_))
    rw [if_neg there]
    refine .pure (.bind (.get ?_))
    rw [if_neg fun zero => present (by rw [here, zero]; rfl)]
    exact .pure ⟨here.symm, rfl⟩

theorem readLoop_ends {fuel : Nat} (mapped : ∀ x, off ≤ x → x < off + n → v.Mapped i x) (enough : n ≤ fuel) :
    Ends (readLoop i fuel off n) v (fun bytes v' => bytes = slice (v.byte i) off n ∧ v' = v) fun _ => False := by
  induction fuel generalizing off n with
  | zero =>
    have none : n = 0 := by omega
    subst none
    exact .pure ⟨rfl, rfl⟩
  | succ _ ih =>
    unfold readLoop
    by_cases none : n = 0
    · subst none
      exact .pure ⟨rfl, rfl⟩
    rw [if_neg none]
    have positive := chunk_pos off none
    have small := chunk_le off n
    have fits := chunk_fits off n
    have first := mapped off (Nat.le_refl _) (by omega)
    refine .bind ((bmap_mapped first.index first.2).returns fun b w ⟨block, same⟩ => .bind (.get (.bind ?_)))
    subst block same
    refine (ih (fun x low high => mapped x (by omega) (by omega)) (by omega)).returns fun bytes u ⟨rest, same⟩ => .pure ⟨?_, same⟩
    have whole : n = chunk off n + (n - chunk off n) := by omega
    have parts : slice (w.byte i) off n = slice (w.byte i) off (chunk off n) ++
        slice (w.byte i) (off + chunk off n) (n - chunk off n) := by
      rw [← slice_add, ← whole]
    rw [rest, parts]
    congr 1
    refine map_congr_left fun t member => ?_
    have low : t < chunk off n := List.mem_range.mp member
    have place : (off + t) % BSIZE = off % BSIZE + t := by
      simp only [BSIZE] at fits ⊢
      omega
    rw [Mount.byte, chunk_index low, place]

/-- What the loop of writei has done when it returns. -/
structure Writes (i : Fin sb.ninodes) (src : Bytes) (tot off n : Nat) (v v' : Mount sb) : Prop where
  fills : Fills i (span off n) v v'
  inside : ∀ t, t < n → v'.Mapped i (off + t) ∧ v'.byte i (off + t) = src (tot + t)
  outside : ∀ j x, v.Mapped j x → (j ≠ i ∨ x < off ∨ off + n ≤ x) → v'.byte j x = v.byte j x

theorem Placed.byte_write (placed : Placed v) (first : v.Mapped i off) {bytes : List UInt8}
    (fits : off % BSIZE + bytes.length ≤ BSIZE) (mapped : v.Mapped j x) :
    (v.write (v.pointer i (slotAt (off / BSIZE))) (splice (v.disk (v.pointer i (slotAt (off / BSIZE)))) (off % BSIZE)
      bytes)).byte j x = if j = i ∧ off ≤ x ∧ x < off + bytes.length then bytes.getD (x - off) 0 else v.byte j x := by
  rw [Mount.byte, placed.write first.index]
  change update v.disk _ _ _ _ = _
  by_cases same : v.pointer j (slotAt (x / BSIZE)) = v.pointer i (slotAt (off / BSIZE))
  · obtain ⟨mine, slots⟩ := placed.exclusive j i _ _ mapped.2 same
    have index := slotAt_inj mapped.index first.index slots
    rw [same, update_self]
    by_cases here : off ≤ x ∧ x < off + bytes.length
    · rw [if_pos ⟨mine, here⟩]
      have place : x % BSIZE = off % BSIZE + (x - off) := by
        simp only [BSIZE] at index fits ⊢
        omega
      have short : x - off < bytes.length := by omega
      rw [place, splice_inside short, getD_eq_getElem?_getD, List.getElem?_eq_getElem short]
      rfl
    · rw [if_neg fun both => here both.2, splice_apart, Mount.byte, same]
      simp only [BSIZE] at index fits here ⊢
      omega
  · rw [update_of_ne same, if_neg, Mount.byte]
    rintro ⟨rfl, _, _⟩
    have index : x / BSIZE = off / BSIZE := by
      simp only [BSIZE] at fits ⊢
      omega
    exact same (by rw [index])

theorem writeLoop_ends {fuel tot : Nat} {src : Bytes} (owned : Owned v) (bound : off + n ≤ MAXFILE * BSIZE) (enough : n ≤ fuel) :
    Ends (writeLoop i src fuel tot off n) v (fun _ v' => Writes i src tot off n v v')
      fun panic => panic = .balloc ∧ Lacks v i (span off n) := by
  induction fuel generalizing v tot off n with
  | zero =>
    have none : n = 0 := by omega
    exact .pure ⟨⟨owned, ∅, empty_subset _, .refl i v⟩, fun t low => by omega, fun _ _ _ _ => rfl⟩
  | succ _ ih =>
    unfold writeLoop
    by_cases none : n = 0
    · rw [if_pos none]
      exact .pure ⟨⟨owned, ∅, empty_subset _, .refl i v⟩, fun t low => by omega, fun _ _ _ _ => rfl⟩
    rw [if_neg none]
    have positive := chunk_pos off none
    have small := chunk_le off n
    have index := index_lt bound none
    have route := route_subset_span_self bound none
    have start : Fills i (span off n) v v := ⟨owned, ∅, empty_subset _, .refl i v⟩
    refine .bind ((bmap_ends owned index).mono (fun b w loads => .bind (.modify ?_)) fun panic ⟨reason, lacks⟩ =>
      ⟨reason, lacks.before start route⟩)
    obtain ⟨fills, _, here, present⟩ := id loads
    subst here
    have first : w.Mapped i off := ⟨by omega, present⟩
    have fits : off % BSIZE + (slice src tot (chunk off n)).length ≤ BSIZE := by
      rw [length_slice]
      exact chunk_fits off n
    have written := fills.owned.write index present
      (splice (w.disk (w.pointer i (slotAt (off / BSIZE)))) (off % BSIZE) (slice src tot (chunk off n)))
    have before := (fills.mono route).trans (written.mono (empty_subset _))
    refine (ih written.owned (by omega) (by omega)).mono (fun _ v' writes => ?_) fun panic ⟨reason, lacks⟩ =>
      ⟨reason, lacks.before before span_subset⟩
    refine ⟨before.trans (writes.fills.mono span_subset), fun t low => ?_, fun j x mapped apart => ?_⟩
    · by_cases early : t < chunk off n
      · have mapped : w.Mapped i (off + t) := ⟨by omega, by rw [chunk_index early]; exact present⟩
        refine ⟨writes.fills.mapped (written.mapped mapped), ?_⟩
        rw [writes.outside i _ (written.mapped mapped) (by omega), fills.owned.byte_write first fits mapped,
          length_slice, if_pos ⟨rfl, by omega, by omega⟩, Nat.add_sub_cancel_left, getD_eq_getElem?_getD, getElem?_slice early]
        rfl
      · have late := writes.inside (t - chunk off n) (by omega)
        have place : off + chunk off n + (t - chunk off n) = off + t := by omega
        have place' : tot + chunk off n + (t - chunk off n) = tot + t := by omega
        rwa [place, place'] at late
    · have there := fills.mapped mapped
      rw [writes.outside j x (written.mapped there) (by omega), fills.owned.byte_write first fits there,
        length_slice, if_neg (by omega), loads.byte mapped]

end

/-! ## Between the calls -/

/-- What holds of a volume while no call is under way. -/
structure WellFormed (v : Mount sb) : Prop where
  owned : Owned v
  synced : ∀ i : Fin sb.ninodes, dinode sb v.disk i = v.inode i
  fits : ∀ i, (v.inode i).size.toNat ≤ MAXFILE * BSIZE
  covered : ∀ i x, x < (v.inode i).size.toNat → v.pointer i (slotAt (x / BSIZE)) ≠ 0

/-- New fields for an inode, in memory and on the disk. -/
def Mount.store (v : Mount sb) (i : Fin sb.ninodes) (d : Dinode) : Mount sb :=
  { v.setInode i d with disk := setDinode sb v.disk i d }

section

variable {v v' w : Mount sb} {i j : Fin sb.ninodes} {d : Dinode} {x : Nat}

theorem WellFormed.mapped (wellFormed : WellFormed v) (inside : x < (v.inode i).size.toNat) : v.Mapped i x :=
  ⟨Nat.lt_of_lt_of_le inside (wellFormed.fits i), wellFormed.covered i x inside⟩

theorem store_ends {change : Mount sb → Dinode} {post : Unit → Mount sb → Prop} {fails : Panic → Prop}
    (holds : post () (v.store i (change v))) :
    Ends (do
      modify fun v => v.setInode i (change v)
      iupdate i) v post fails := by
  refine .bind (.modify (.modify ?_))
  have self : (v.setInode i (change v)).inode i = change v := update_self ..
  rw [self]
  exact holds

theorem store_inode_self : (v.store i d).inode i = d := update_self ..

theorem store_inode_of_ne (other : j ≠ i) : (v.store i d).inode j = v.inode j := update_of_ne other ..

theorem store_disk {c : Nat} (high : sb.bmapstart ≤ c) : (v.store i d).disk c = v.disk c := by
  have := iblock_lt i
  exact setDinode_of_ne (by omega)

theorem store_dinode_self : dinode sb (v.store i d).disk i = d := dinode_setDinode_self

theorem store_dinode_of_ne (other : j ≠ i) : dinode sb (v.store i d).disk j = dinode sb v.disk j :=
  dinode_setDinode_of_ne fun same => other (Fin.ext same)

theorem store_inUse {c : Nat} : inUse sb (v.store i d).disk c = inUse sb v.disk c :=
  inUse_congr (store_disk (bmapstart_le_bblock sb c))

theorem Dinode.pointer_congr {disk other : Disk}
    (same : d.pointer disk .indirect ≠ 0 → other (d.pointer disk .indirect) = disk (d.pointer disk .indirect)) (s : Slot) :
    d.pointer other s = d.pointer disk s := by
  cases s with
  | direct | indirect => rfl
  | entry =>
    by_cases none : d.addr NDIRECT = 0
    · exact (if_pos none).trans (if_pos none).symm
    · have equal : other (d.addr NDIRECT) = disk (d.addr NDIRECT) := same none
      rw [Dinode.pointer, Dinode.pointer, if_neg none, if_neg none, equal]

theorem store_pointer_of_ne (placed : Placed v) (other : j ≠ i) (s : Slot) : (v.store i d).pointer j s = v.pointer j s := by
  have middle := bmapstart_lt_dataStart sb
  rw [Mount.pointer, store_inode_of_ne other]
  refine pointer_congr (fun present => store_disk ?_) s
  have := (placed.inside j .indirect present).1
  change sb.bmapstart ≤ v.pointer j .indirect
  omega

theorem store_pointer (placed : Placed v) (kept : d.addrs = (v.inode i).addrs) (j : Fin sb.ninodes) (s : Slot) :
    (v.store i d).pointer j s = v.pointer j s := by
  by_cases mine : j = i
  · have fields (disk : Disk) (t : Slot) : d.pointer disk t = (v.inode i).pointer disk t := by
      cases t <;> simp [Dinode.pointer, addr, kept]
    have middle := bmapstart_lt_dataStart sb
    rw [mine, Mount.pointer, store_inode_self, fields]
    refine pointer_congr (fun present => store_disk ?_) s
    have := (placed.inside i .indirect present).1
    change sb.bmapstart ≤ v.pointer i .indirect
    omega
  · exact store_pointer_of_ne placed mine s

theorem store_pointer_zero (zero : d.addrs = fun _ => 0) (s : Slot) : (v.store i d).pointer i s = 0 := by
  rw [Mount.pointer, store_inode_self]
  cases s <;> simp [Dinode.pointer, addr, zero]

theorem Owned.store (owned : Owned v) (kept : d.addrs = (v.inode i).addrs ∨ d.addrs = fun _ => 0) : Owned (v.store i d) := by
  have same (j : Fin sb.ninodes) (s : Slot) (present : (v.store i d).pointer j s ≠ 0) :
      (v.store i d).pointer j s = v.pointer j s := by
    rcases kept with kept | zero
    · exact store_pointer owned.toPlaced kept j s
    · by_cases mine : j = i
      · rw [mine] at present
        exact absurd (store_pointer_zero zero s) present
      · exact store_pointer_of_ne owned.toPlaced mine s
  refine ⟨owned.toPlaced.congr same, fun j s present => ?_, fun c below => ?_⟩
  · have before := same j s present
    rw [before] at present ⊢
    rw [store_inUse]
    exact owned.used j s present
  · rw [store_inUse]
    exact owned.kept c below

theorem store_byte (placed : Placed v) (kept : d.addrs = (v.inode i).addrs) (mapped : v.Mapped j x) :
    (v.store i d).byte j x = v.byte j x := by
  have := (placed.inside j _ mapped.2).1
  have := bmapstart_lt_dataStart sb
  rw [Mount.byte, store_pointer placed kept, store_disk (by omega), Mount.byte]

theorem Grows.inode_eq (grows : Grows i ∅ v v') : v'.inode = v.inode := by
  funext j
  by_cases mine : j = i
  · obtain ⟨addrs, fields⟩ := grows.fields
    have low (k : Fin (NDIRECT + 1)) : k.val ≤ NDIRECT := le_of_lt_succ k.isLt
    have same : addrs = (v.inode i).addrs := by
      funext k
      have kept := grows.pointers i (addrSlot k) (by simp)
      rw [Mount.pointer, Mount.pointer, pointer_addrSlot _ _ (low k), pointer_addrSlot _ _ (low k), fields] at kept
      have place : Fin.ofNat (NDIRECT + 1) k.val = k := Fin.ext (mod_eq_of_lt k.isLt)
      simp only [addr, place] at kept
      exact UInt32.toNat_inj.mp kept
    rw [mine, fields, same]
  · exact grows.others j mine

end

/-! ## Calls -/

/-- A file as an array of bytes: what a call does to it, and what the call returns. -/
def Access.act (device : Bool) (file : List UInt8) : Access → List UInt8 × Reply
  | .readi off n =>
    (file, if device = true then .driver
      else if off.toNat ≤ file.length ∧ off.toNat + n.toNat < 2 ^ 32 then .data ((file.drop off.toNat).take n.toNat)
      else .failed)
  | .writei src off n =>
    if device = true then (file, .driver)
    else if off.toNat ≤ file.length ∧ off.toNat + n.toNat < 2 ^ 32 ∧ off.toNat + n.toNat ≤ MAXFILE * BSIZE then
      (file.take off.toNat ++ (slice src 0 n.toNat ++ file.drop (off.toNat + n.toNat)), .count n.toNat)
    else (file, .failed)
  | .itrunc => ([], .done)

/-- The places for which a call may need blocks. -/
def Access.needs : Access → Finset Slot
  | .writei _ off n => span off.toNat n.toNat
  | _ => ∅

def Mount.device (v : Mount sb) (i : Fin sb.ninodes) : Bool := (v.inode i).type = T_DEV

/-- A call on the inode `i` does to its contents what it does to an array, and nothing to the other inodes. -/
structure Serves (i : Fin sb.ninodes) (a : Access) (v : Mount sb) (reply : Reply) (v' : Mount sb) : Prop where
  wellFormed : WellFormed v'
  calls : (∀ call ∈ v.calls, call.Good sb) → ∀ call ∈ v'.calls, call.Good sb
  others : ∀ j, j ≠ i → v'.contents j = v.contents j
  contents : v'.contents i = (a.act (v.device i) (v.contents i)).1
  reply : reply = (a.act (v.device i) (v.contents i)).2

variable {v v' : Mount sb} {i j : Fin sb.ninodes} {off n size : UInt32} {src : Bytes} {k m : Nat}

theorem length_contents (v : Mount sb) (i : Fin sb.ninodes) : (v.contents i).length = (v.inode i).size.toNat := length_slice

theorem outOfRange_iff : (size < off ∨ off + n < off) ↔ ¬ (off.toNat ≤ size.toNat ∧ off.toNat + n.toNat < 2 ^ 32) := by
  have := n.toNat_lt
  rw [lt_iff_toNat_lt, lt_iff_toNat_lt, UInt32.toNat_add]
  omega

theorem toNat_end (fits : off.toNat + n.toNat < 2 ^ 32) : (off + n).toNat = off.toNat + n.toNat := by
  rw [UInt32.toNat_add, mod_eq_of_lt fits]

theorem Serves.same {a : Access} {reply : Reply} (wellFormed : WellFormed v)
    (file : (a.act (v.device i) (v.contents i)).1 = v.contents i) (answer : reply = (a.act (v.device i) (v.contents i)).2) :
    Serves i a v reply v :=
  ⟨wellFormed, id, fun _ _ => rfl, file.symm, answer⟩

theorem readi_mapped (regular : (v.inode i).type ≠ T_DEV)
    (inside : off.toNat ≤ (v.inode i).size.toNat ∧ off.toNat + n.toNat < 2 ^ 32)
    (mapped : ∀ x, off.toNat ≤ x → x < off.toNat + min n.toNat ((v.inode i).size.toNat - off.toNat) → v.Mapped i x) :
    Ends (readi i off n) v (fun reply v' =>
      reply = .data (slice (v.byte i) off.toNat (min n.toNat ((v.inode i).size.toNat - off.toNat))) ∧ v' = v) fun _ => False := by
  have count : (if (v.inode i).size < off + n then (v.inode i).size - off else n).toNat =
      min n.toNat ((v.inode i).size.toNat - off.toNat) := by
    have ends := toNat_end inside.2
    split
    · rename_i past
      rw [lt_iff_toNat_lt, ends] at past
      rw [UInt32.toNat_sub_of_le _ _ (UInt32.le_iff_toNat_le.mpr inside.1)]
      omega
    · rename_i within
      rw [lt_iff_toNat_lt, ends] at within
      omega
  refine .bind (.get ?_)
  rw [if_neg regular, if_neg (outOfRange_iff.not.mpr (not_not.mpr inside))]
  refine .bind ((readLoop_ends (fun x low high => mapped x low (count ▸ high)) (Nat.le_refl _)).returns
    fun bytes w ⟨data, same⟩ => .pure ⟨?_, same⟩)
  rw [data, count]

theorem readi_ends (wellFormed : WellFormed v) : Ends (readi i off n) v (Serves i (.readi off n) v) fun _ => False := by
  have answer (reply : Reply) (this : reply = ((Access.readi off n).act (v.device i) (v.contents i)).2) :
      Serves i (.readi off n) v reply v := .same wellFormed rfl this
  by_cases device : (v.inode i).type = T_DEV
  · refine .bind (.get ?_)
    rw [if_pos device]
    refine .pure (answer _ ?_)
    simp [Access.act, Mount.device, device]
  have act : ((Access.readi off n).act (v.device i) (v.contents i)).2 =
      if off.toNat ≤ (v.inode i).size.toNat ∧ off.toNat + n.toNat < 2 ^ 32 then
        .data (((v.contents i).drop off.toNat).take n.toNat) else .failed := by
    simp [Access.act, Mount.device, device, length_contents]
  by_cases outside : (v.inode i).size < off ∨ off + n < off
  · refine .bind (.get ?_)
    rw [if_neg device, if_pos outside]
    refine .pure (answer _ ?_)
    rw [act, if_neg (outOfRange_iff.mp outside)]
  · have inside := not_not.mp (outOfRange_iff.not.mp outside)
    refine (readi_mapped device inside fun x low high => wellFormed.mapped (by omega)).returns fun reply w ⟨data, same⟩ => ?_
    subst same
    refine answer reply ?_
    rw [act, if_pos inside, data, Mount.contents, take_drop_slice]

theorem Writes.contents_of_ne {tot k m : Nat} (writes : Writes i src tot k m v v') (wellFormed : WellFormed v) (other : j ≠ i) :
    v'.contents j = v.contents j := by
  obtain ⟨-, _, -, grows⟩ := writes.fills
  rw [Mount.contents, Mount.contents, grows.others j other]
  exact slice_congr fun x _ high => writes.outside j x (wellFormed.mapped (by omega)) (.inl other)

theorem span_present (wellFormed : WellFormed v) (inside : k + m ≤ (v.inode i).size.toNat) {s : Slot}
    (member : s ∈ span k m) : v.pointer i s ≠ 0 := by
  obtain ⟨bn, touched, member⟩ := Finset.mem_biUnion.mp member
  obtain ⟨bound, -, _, -⟩ := Finset.mem_filter.mp touched
  have bound := Finset.mem_range.mp bound
  have covered := wellFormed.covered i (bn * BSIZE) (by omega)
  rw [Nat.mul_div_cancel _ (by decide)] at covered
  unfold route at member
  split at member
  · rwa [Finset.mem_singleton.mp member]
  · rename_i beyond
    rcases Finset.mem_insert.mp member with indirect | last
    · rw [slotAt_entry beyond bound] at covered
      rw [indirect]
      exact fun none => covered (if_pos none)
    · rwa [Finset.mem_singleton.mp last]

theorem Fills.none {slots : Finset Slot} (fills : Fills i slots v v') (present : ∀ s ∈ slots, v.pointer i s ≠ 0) :
    Grows i ∅ v v' := by
  obtain ⟨-, new, inside, grows⟩ := fills
  have empty : new = ∅ := eq_empty_of_forall_notMem fun s member => present s (inside member) (grows.fresh s member).1
  rwa [empty] at grows

theorem Writes.contents {w : Mount sb} (writes : Writes i src 0 k m v w) (wellFormed : WellFormed v)
    (inside : k ≤ (v.inode i).size.toNat) (sized : (v'.inode i).size.toNat = max (v.inode i).size.toNat (k + m))
    (bytes : ∀ x, w.Mapped i x → v'.byte i x = w.byte i x) :
    v'.contents i = (v.contents i).take k ++ (slice src 0 m ++ (v.contents i).drop (k + m)) := by
  have early (x : Nat) (mapped : v.Mapped i x) (apart : x < k ∨ k + m ≤ x) : v'.byte i x = v.byte i x := by
    rw [bytes x (writes.fills.mapped mapped), writes.outside i x mapped (.inr apart)]
  have overwritten : slice (v'.byte i) 0 (max (v.inode i).size.toNat (k + (slice src 0 m).length)) = _ :=
    slice_overwrite inside (fun x low => early x (wellFormed.mapped (by omega)) (.inl low)) (fun t low => ?_)
      fun x high low => early x (wellFormed.mapped low) (.inr (by rwa [length_slice] at high))
  · rw [length_slice] at overwritten
    rw [Mount.contents, sized, overwritten, Mount.contents]
  · have short : t < m := by rwa [length_slice] at low
    obtain ⟨mapped, value⟩ := writes.inside t short
    rw [bytes _ mapped, value]
    simp [Data.slice]

theorem Writes.fields {tot k m : Nat} (writes : Writes i src tot k m v v') : (v'.inode i).size = (v.inode i).size := by
  obtain ⟨-, _, -, grows⟩ := writes.fills
  obtain ⟨_, fields⟩ := grows.fields
  rw [fields]

theorem Writes.grown {w : Mount sb} (writes : Writes i src 0 off.toNat n.toNat v w) (wellFormed : WellFormed v)
    (inside : off.toNat ≤ (v.inode i).size.toNat) (fits : off.toNat + n.toNat < 2 ^ 32)
    (bound : off.toNat + n.toNat ≤ MAXFILE * BSIZE) (grows : (v.inode i).size.toNat < off.toNat + n.toNat) :
    WellFormed (w.store i { w.inode i with size := off + n }) ∧
      (w.store i { w.inode i with size := off + n }).contents i =
        (v.contents i).take off.toNat ++ (slice src 0 n.toNat ++ (v.contents i).drop (off.toNat + n.toNat)) ∧
      ∀ j, j ≠ i → (w.store i { w.inode i with size := off + n }).contents j = v.contents j := by
  obtain ⟨owned, _, -, grown⟩ := id writes.fills
  have ends := toNat_end fits
  have mapped (x : Nat) (low : x < off.toNat + n.toNat) : w.Mapped i x := by
    by_cases early : x < off.toNat
    · exact writes.fills.mapped (wellFormed.mapped (by omega))
    · have late := (writes.inside (x - off.toNat) (by omega)).1
      rwa [show off.toNat + (x - off.toNat) = x by omega] at late
  refine ⟨⟨owned.store (.inl rfl), fun j => ?_, fun j => ?_, fun j x => ?_⟩, ?_, fun j other => ?_⟩
  · by_cases mine : j = i
    · rw [mine, store_dinode_self, store_inode_self]
    · rw [store_dinode_of_ne mine, store_inode_of_ne mine, grown.dinodes, grown.others j mine]
      exact wellFormed.synced j
  · by_cases mine : j = i
    · rw [mine, store_inode_self]
      rwa [ends]
    · rw [store_inode_of_ne mine, grown.others j mine]
      exact wellFormed.fits j
  · rw [store_pointer owned.toPlaced (by rfl)]
    by_cases mine : j = i
    · rw [mine, store_inode_self]
      intro low
      exact (mapped x (Nat.lt_of_lt_of_eq low ends)).2
    · rw [store_inode_of_ne mine, grown.others j mine]
      intro low
      exact (writes.fills.mapped (wellFormed.mapped low)).2
  · refine writes.contents wellFormed inside ?_ fun x => store_byte owned.toPlaced rfl
    rw [store_inode_self]
    exact ends.trans (by omega)
  · rw [← writes.contents_of_ne wellFormed other, Mount.contents, Mount.contents, store_inode_of_ne other]
    refine slice_congr fun x _ high => store_byte owned.toPlaced rfl (writes.fills.mapped (wellFormed.mapped ?_))
    rw [grown.others j other] at high
    omega

theorem Writes.inPlace {w : Mount sb} (writes : Writes i src 0 k m v w) (wellFormed : WellFormed v)
    (inside : k + m ≤ (v.inode i).size.toNat) :
    WellFormed w ∧ w.contents i = (v.contents i).take k ++ (slice src 0 m ++ (v.contents i).drop (k + m)) := by
  have grows := writes.fills.none fun s member => span_present wellFormed inside member
  have inode := grows.inode_eq
  refine ⟨⟨writes.fills.owned, fun j => ?_, fun j => ?_, fun j x low => ?_⟩, ?_⟩
  · rw [grows.dinodes, inode]
    exact wellFormed.synced j
  · rw [inode]
    exact wellFormed.fits j
  · rw [inode] at low
    exact (writes.fills.mapped (wellFormed.mapped low)).2
  · refine writes.contents wellFormed (by omega) ?_ fun _ _ => rfl
    rw [inode]
    omega

theorem writei_ends (wellFormed : WellFormed v) : Ends (writei i src off n) v (Serves i (.writei src off n) v)
      fun panic => panic = .balloc ∧ Lacks v i (span off.toNat n.toNat) := by
  refine .bind (.get ?_)
  by_cases device : (v.inode i).type = T_DEV
  · rw [if_pos device]
    refine .pure (.same wellFormed ?_ ?_) <;> simp [Access.act, Mount.device, device]
  rw [if_neg device]
  have act (file : List UInt8) : (Access.writei src off n).act (v.device i) file =
      if off.toNat ≤ file.length ∧ off.toNat + n.toNat < 2 ^ 32 ∧ off.toNat + n.toNat ≤ MAXFILE * BSIZE then
        (file.take off.toNat ++ (slice src 0 n.toNat ++ file.drop (off.toNat + n.toNat)), .count n.toNat)
      else (file, .failed) := by
    simp [Access.act, Mount.device, device]
  have refused (outside : ¬ (off.toNat ≤ (v.contents i).length ∧ off.toNat + n.toNat < 2 ^ 32 ∧
      off.toNat + n.toNat ≤ MAXFILE * BSIZE)) : Serves i (.writei src off n) v .failed v := by
    refine .same wellFormed ?_ ?_ <;> rw [act, if_neg outside]
  by_cases outside : (v.inode i).size < off ∨ off + n < off
  · rw [if_pos outside]
    rw [outOfRange_iff, ← length_contents] at outside
    exact .pure (refused fun all => outside ⟨all.1, all.2.1⟩)
  rw [if_neg outside]
  have inside := not_not.mp (outOfRange_iff.not.mp outside)
  have ends := toNat_end inside.2
  have limit : (ofNat (MAXFILE * BSIZE)).toNat = MAXFILE * BSIZE := rfl
  by_cases large : ofNat (MAXFILE * BSIZE) < off + n
  · rw [if_pos large]
    rw [lt_iff_toNat_lt, limit, ends] at large
    exact .pure (refused fun all => Nat.not_le_of_lt large all.2.2)
  rw [if_neg large]
  rw [lt_iff_toNat_lt, limit, ends, Nat.not_lt] at large
  have accepted : off.toNat ≤ (v.contents i).length ∧ off.toNat + n.toNat < 2 ^ 32 ∧
      off.toNat + n.toNat ≤ MAXFILE * BSIZE := ⟨length_contents v i ▸ inside.1, inside.2, large⟩
  refine .bind ((writeLoop_ends wellFormed.owned large (Nat.le_refl _)).returns fun _ w writes => .bind (.bind (.get ?_)))
  obtain ⟨-, _, -, grows⟩ := id writes.fills
  by_cases grow : 0 < n ∧ (w.inode i).size < off + n
  · rw [if_pos grow]
    have beyond : (v.inode i).size.toNat < off.toNat + n.toNat := by
      have past := grow.2
      rwa [lt_iff_toNat_lt, ends, writes.fields] at past
    obtain ⟨stored, contents, others⟩ := writes.grown wellFormed inside.1 inside.2 large beyond
    refine store_ends (.pure ⟨stored, grows.calls, others, ?_, ?_⟩)
    · rw [contents, act, if_pos accepted]
    · rw [act, if_pos accepted]
  · rw [if_neg grow]
    have within : off.toNat + n.toNat ≤ (v.inode i).size.toNat := by
      by_contra beyond
      have some : 0 < n.toNat := by omega
      refine grow ⟨UInt32.lt_iff_toNat_lt.mpr some, ?_⟩
      rw [lt_iff_toNat_lt, ends, writes.fields]
      omega
    obtain ⟨kept, contents⟩ := writes.inPlace wellFormed within
    refine .pure (.pure ⟨kept, grows.calls, fun j other => writes.contents_of_ne wellFormed other, ?_, ?_⟩)
    · rw [contents, act, if_pos accepted]
    · rw [act, if_pos accepted]

section

variable (truncates : Truncates i v v')
include truncates

theorem Truncates.pointer_of_ne (owned : Owned v) (other : j ≠ i) (s : Slot) :
    v'.pointer j s = v.pointer j s := by
  rw [Mount.pointer, truncates.others j other]
  exact pointer_congr (fun present => truncates.disk _ (owned.inside j .indirect present).1) s

theorem Truncates.pointer_self (s : Slot) : v'.pointer i s = 0 := by
  rw [Mount.pointer, truncates.inode]
  cases s <;> simp [Dinode.pointer, addr]

theorem Truncates.owned (owned : Owned v) : Owned v' := by
  have other {k : Fin sb.ninodes} {s : Slot} (present : v'.pointer k s ≠ 0) : k ≠ i := fun mine =>
    present (by rw [mine, truncates.pointer_self])
  have same {k : Fin sb.ninodes} {s : Slot} (present : v'.pointer k s ≠ 0) : v'.pointer k s = v.pointer k s :=
    truncates.pointer_of_ne owned (other present) s
  refine ⟨owned.toPlaced.congr fun k s => same, fun k s present => ?_, fun c below => ?_⟩
  · have mine := other present
    have before := same present
    rw [before] at present ⊢
    refine (truncates.marks _ (bblock_lt (owned.inside k s present).2)).mpr ⟨owned.used k s present, ?_⟩
    rintro ⟨-, t, equal⟩
    exact mine (owned.exclusive k i s t present equal.symm).1
  · have := dataStart_le_size sb
    refine (truncates.marks c (bblock_lt (by omega))).mpr ⟨owned.kept c below, ?_⟩
    rintro ⟨nonzero, t, equal⟩
    have := (owned.inside i t (equal ▸ nonzero)).1
    omega

theorem Truncates.wellFormed (wellFormed : WellFormed v) : WellFormed v' := by
  refine ⟨truncates.owned wellFormed.owned, fun j => ?_, fun j => ?_, fun j x low => ?_⟩
  · by_cases mine : j = i
    · rw [mine, truncates.dinode]
    · rw [truncates.dinodes j mine, truncates.others j mine]
      exact wellFormed.synced j
  · by_cases mine : j = i
    · rw [mine, truncates.inode]
      exact Nat.zero_le _
    · rw [truncates.others j mine]
      exact wellFormed.fits j
  · by_cases mine : j = i
    · rw [mine, truncates.inode] at low
      exact absurd low (Nat.not_lt_zero x)
    · rw [truncates.others j mine] at low
      rw [truncates.pointer_of_ne wellFormed.owned mine]
      exact wellFormed.covered j x low

end

theorem itrunc_serves (wellFormed : WellFormed v) :
    Ends (Access.itrunc.call i) v (fun reply v' => Serves i .itrunc v reply v' ∧ Truncates i v v') fun _ => False := by
  refine .bind ((itrunc_ends wellFormed.owned).returns fun _ v' truncates => .pure ⟨⟨truncates.wellFormed wellFormed,
    truncates.calls, fun j other => ?_, ?_, rfl⟩, truncates⟩)
  · rw [Mount.contents, Mount.contents, truncates.others j other]
    refine slice_congr fun x _ low => ?_
    have mapped : v.Mapped j x := wellFormed.mapped (by omega)
    rw [Mount.byte, truncates.pointer_of_ne wellFormed.owned other,
      truncates.disk _ (wellFormed.owned.inside j _ mapped.2).1, Mount.byte]
  · rw [Mount.contents, truncates.inode]
    rfl

theorem access_ends (wellFormed : WellFormed v) (a : Access) :
    Ends (a.call i) v (Serves i a v) fun panic => panic = .balloc ∧ Lacks v i a.needs := by
  cases a with
  | readi => exact (readi_ends wellFormed).mono (fun _ _ => id) fun _ impossible => impossible.elim
  | writei => exact writei_ends wellFormed
  | itrunc => exact (itrunc_serves wellFormed).mono (fun _ _ both => both.1) fun _ impossible => impossible.elim

end Xv6.Volume
