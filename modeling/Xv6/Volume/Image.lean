import Xv6.Volume.Mkfs
import Xv6.Data.Count

namespace Xv6.Volume.Mkfs

open Data Function Finset List Nat Mount

/-! What mkfs has laid out after each of its steps. Blocks are handed out in
order, so that those from `freeblock` on have never been written. -/

/-- The blocks of a file of `z` bytes, with its indirect block. -/
def need (z : Nat) : Nat := (z + BSIZE - 1) / BSIZE + if NDIRECT * BSIZE < z then 1 else 0

structure Tidy (v : Mount sb) (free : Nat) : Prop where
  placed : Placed v
  below : ∀ i s, v.pointer i s < free
  blank : ∀ b, free ≤ b → v.disk b = fun _ => 0
  start : nmeta ≤ free
  room : free ≤ FSSIZE

/-- The places `slots` of the inode `i` have blocks, new ones where there were none. -/
structure Places (i : Fin sb.ninodes) (slots : Finset Slot) (v : Mount sb) (free : Nat) (v' : Mount sb) (free' : Nat) : Prop where
  tidy : Tidy v' free'
  filled : ∀ s ∈ slots, v'.pointer i s ≠ 0
  pointers : ∀ j s, (j = i ∧ s ∈ slots ∧ v.pointer j s = 0) ∨ v'.pointer j s = v.pointer j s
  count : free' = free + (missing v i slots).card
  keeps : Keeps v v'
  fresh : ∀ s ∈ slots, s ≠ .indirect → v.pointer i s = 0 → v'.disk (v'.pointer i s) = fun _ => 0
  low : ∀ b, b < sb.dataStart → v'.disk b = v.disk b
  others : ∀ j, j ≠ i → v'.inode j = v.inode j
  fields : ∃ addrs, v'.inode i = { v.inode i with addrs }

section

variable {v v' w : Mount sb} {i : Fin sb.ninodes} {free mid free' : Nat} {slots more : Finset Slot} {s : Slot}

section

variable (tidy : Tidy v free)
include tidy

theorem Tidy.attach (room : free < FSSIZE)
    (pointer : ∀ j t, v'.pointer j t = if j = i ∧ t = s then free else v.pointer j t)
    (blank : ∀ b, free < b → v'.disk b = v.disk b) : Tidy v' (free + 1) where
  placed := tidy.placed.attach ⟨tidy.start, room⟩ (fun j t => Nat.ne_of_lt (tidy.below j t)) pointer
  below j t := by
    rw [pointer]
    split
    · exact lt_succ_self _
    · exact lt_succ_of_lt (tidy.below j t)
  blank b high := by
    rw [blank b high]
    exact tidy.blank b (Nat.le_of_lt high)
  start := le_succ_of_le tidy.start
  room := room

theorem Tidy.pos : free ≠ 0 := by
  have low : 0 < nmeta := by decide
  have := tidy.start
  omega

theorem Places.refl (present : v.pointer i s ≠ 0) : Places i {s} v free v free where
  tidy := tidy
  filled t member := by rwa [Finset.mem_singleton.mp member]
  pointers _ _ := .inr rfl
  count := by
    have none : missing v i {s} = ∅ := by
      rw [missing, Finset.filter_singleton, if_neg present]
    rw [none, Finset.card_empty, Nat.add_zero]
  keeps _ _ _ _ := rfl
  fresh t member _ empty := absurd empty (by rwa [Finset.mem_singleton.mp member])
  low _ _ := rfl
  others _ _ := rfl
  fields := ⟨_, rfl⟩

theorem Places.attach (room : free < FSSIZE) (empty : v.pointer i s = 0)
    (pointer : ∀ j t, v'.pointer j t = if j = i ∧ t = s then free else v.pointer j t)
    (low : ∀ b, b < sb.dataStart → v'.disk b = v.disk b) (high : ∀ b, free ≤ b → v'.disk b = v.disk b) (keeps : Keeps v v')
    (others : ∀ j, j ≠ i → v'.inode j = v.inode j) (fields : ∃ addrs, v'.inode i = { v.inode i with addrs }) :
    Places i {s} v free v' (free + 1) where
  tidy := tidy.attach room pointer fun b above => high b (Nat.le_of_lt above)
  filled t member := by
    rw [Finset.mem_singleton.mp member, pointer, if_pos ⟨rfl, rfl⟩]
    exact tidy.pos
  pointers j t := by
    rw [pointer]
    split
    · rename_i here
      rw [here.1, here.2]
      exact .inl ⟨rfl, Finset.mem_singleton_self s, empty⟩
    · exact .inr rfl
  count := by
    have one : missing v i {s} = {s} := by
      rw [missing, Finset.filter_singleton, if_pos empty]
    rw [one, Finset.card_singleton]
  keeps := keeps
  fresh t member _ _ := by
    rw [Finset.mem_singleton.mp member, pointer, if_pos ⟨rfl, rfl⟩, high free (Nat.le_refl _)]
    exact tidy.blank free (Nat.le_refl _)
  low := low
  others := others
  fields := fields

end

theorem Places.pointer_of_notMem (places : Places i slots v free v' free') (apart : s ∉ slots) (j : Fin sb.ninodes) :
    v'.pointer j s = v.pointer j s :=
  (places.pointers j s).resolve_left fun here => apart here.2.1

theorem Places.pointer_eq (places : Places i slots v free v' free') {j : Fin sb.ninodes} (present : v.pointer j s ≠ 0) :
    v'.pointer j s = v.pointer j s :=
  (places.pointers j s).resolve_left fun here => present here.2.2

theorem Places.card_missing (places : Places i slots v free w mid) (apart : Disjoint slots more) :
    (missing v i (slots ∪ more)).card = (missing v i slots).card + (missing w i more).card := by
  have rest : missing w i more = missing v i more := filter_congr fun t late => by
    rw [places.pointer_of_notMem (Finset.disjoint_right.mp apart late)]
  have parts : missing v i (slots ∪ more) = missing v i slots ∪ missing v i more := filter_union ..
  have separate : Disjoint (missing v i slots) (missing v i more) := disjoint_filter_filter apart
  rw [rest, parts, card_union_of_disjoint separate]

theorem Places.trans (first : Places i slots v free w mid) (second : Places i more w mid v' free') (apart : Disjoint slots more) :
    Places i (slots ∪ more) v free v' free' where
  tidy := second.tidy
  filled t member := by
    rcases Finset.mem_union.mp member with early | late
    · rw [second.pointer_eq (first.filled t early)]
      exact first.filled t early
    · exact second.filled t late
  pointers j t := by
    rcases second.pointers j t with ⟨mine, late, empty⟩ | same
    · rw [first.pointer_of_notMem (Finset.disjoint_right.mp apart late)] at empty
      exact .inl ⟨mine, mem_union_right _ late, empty⟩
    · rw [same]
      exact (first.pointers j t).imp_left fun ⟨mine, early, empty⟩ => ⟨mine, mem_union_left _ early, empty⟩
  count := by rw [second.count, first.count, first.card_missing apart, Nat.add_assoc]
  keeps j t content present := by
    have same := first.pointer_eq present
    have later := second.keeps j t content (by rwa [same])
    rw [same] at later
    exact later.trans (first.keeps j t content present)
  fresh t member content empty := by
    rcases Finset.mem_union.mp member with early | late
    · have there := first.filled t early
      rw [second.pointer_eq there, second.keeps i t content there]
      exact first.fresh t early content empty
    · refine second.fresh t late content ?_
      rw [first.pointer_of_notMem (Finset.disjoint_right.mp apart late)]
      exact empty
  low b below := (second.low b below).trans (first.low b below)
  others j other := (second.others j other).trans (first.others j other)
  fields := by
    obtain ⟨_, fields⟩ := first.fields
    obtain ⟨addrs', fields'⟩ := second.fields
    exact ⟨addrs', by rw [fields', fields]⟩

end

/-! ## A round of iappend -/

/-- The image while iappend has the dinode of `i` in its variable `din`. -/
def Image.see (s : Image) (i : Fin sb.ninodes) (din : Dinode) : Mount sb := (mount sb s.disk).setInode i din

/-- Only the disk and `freeblock` have changed. -/
def Image.Quiet (s s' : Image) : Prop := s'.length = s.length ∧ s'.freeinode = s.freeinode ∧ s'.written = s.written

section

variable {s s' : Image} {i : Fin sb.ninodes} {din : Dinode} {b k fbn : Nat} {post : Bytes → Image → Prop}
    {fails : Exit → Prop} {sec : Nat}

theorem see_inode_self : (s.see i din).inode i = din := update_self ..

theorem see_inode_of_ne {j : Fin sb.ninodes} (other : j ≠ i) : (s.see i din).inode j = dinode sb s.disk j := update_of_ne other ..

theorem see_write {block : Bytes} (data : sb.dataStart ≤ b) (disk : s'.disk = update s.disk b block) :
    s'.see i din = (s.see i din).write b block := by
  have inode : (mount sb s'.disk).inode = (mount sb s.disk).inode := by
    funext j
    have := iblock_lt j
    have := bmapstart_lt_dataStart sb
    refine dinode_congr ?_
    rw [disk, update_of_ne (by omega)]
  unfold Image.see setInode write
  rw [inode]
  simp only [mount, disk]

theorem rsect_ends (inside : sec < s.length) (holds : post (s.disk sec) s) : Ends (rsect sec) s post fails := by
  refine .bind (.get ?_)
  rw [if_pos inside]
  exact .pure holds

theorem rsect_beyond (beyond : s.length ≤ sec) (holds : fails .failed) : Ends (rsect sec) s post fails := by
  refine .bind (.get ?_)
  rw [if_neg (Nat.not_lt_of_le beyond)]
  exact .throw holds

/-- The blocks have run out, and the next one is beyond the end of the file. -/
def Full (v : Mount sb) (free : Nat) (i : Fin sb.ninodes) (slots : Finset Slot) : Prop := FSSIZE < free + (missing v i slots).card

theorem full_of_empty {v : Mount sb} {free : Nat} {slots : Finset Slot} {t : Slot} (none : FSSIZE ≤ free) (member : t ∈ slots)
    (empty : v.pointer i t = 0) : Full v free i slots := by
  have some : 0 < (missing v i slots).card := Finset.card_pos.mpr ⟨t, Finset.mem_filter.mpr ⟨member, empty⟩⟩
  unfold Full
  omega

theorem Full.mono {v : Mount sb} {free : Nat} {slots more : Finset Slot} (full : Full v free i slots) (sub : slots ⊆ more) :
    Full v free i more := by
  have : (missing v i slots).card ≤ (missing v i more).card := card_le_card (filter_subset_filter _ sub)
  unfold Full at full ⊢
  omega

section

variable (tidy : Tidy (s.see i din) s.freeblock)
include tidy

theorem place_ends (low : k ≤ NDIRECT) :
    Ends (place din k) s (fun din' s' => s.Quiet s' ∧ (FSSIZE ≤ din'.addr k ∧ Full (s.see i din) s.freeblock i {addrSlot k} ∨
      Places i {addrSlot k} (s.see i din) s.freeblock (s'.see i din') s'.freeblock)) fun _ => False := by
  have here : (s.see i din).pointer i (addrSlot k) = din.addr k := by
    rw [Mount.pointer, see_inode_self, pointer_addrSlot _ _ low]
  unfold place
  by_cases empty : din.addr k = 0
  · rw [if_pos empty]
    refine .bind (.bind (.get (.bind (.modify (.pure (.pure ⟨⟨rfl, rfl, rfl⟩, ?_⟩))))))
    by_cases room : s.freeblock < FSSIZE
    · right
      refine .attach tidy room (here.trans empty) (fun j t => ?_) (fun _ _ => rfl) (fun _ _ => rfl) (fun _ _ _ _ => rfl)
        (fun j other => ?_) ?_
      · by_cases mine : j = i
        · rw [mine, Mount.pointer, see_inode_self, Mount.pointer, see_inode_self]
          simp only [true_and]
          have small : s.freeblock < sb.size := room
          refine pointer_setAddr s.disk din small low (fun top => ⟨top ▸ empty, ?_⟩) t
          exact tidy.blank s.freeblock (Nat.le_refl _)
        · rw [Mount.pointer, see_inode_of_ne mine, Mount.pointer, see_inode_of_ne mine]
          simp only [mine, false_and, if_false]
          rfl
      · rw [see_inode_of_ne other, see_inode_of_ne other]
      · rw [see_inode_self, see_inode_self]
        exact ⟨_, rfl⟩
    · left
      have last : s.freeblock = FSSIZE := Nat.le_antisymm tidy.room (Nat.not_lt.mp room)
      refine ⟨?_, full_of_empty (Nat.le_of_eq last.symm) (Finset.mem_singleton_self _) (here.trans empty)⟩
      simp only [last, Dinode.addr, Dinode.setAddr, update_self]
      decide
  · rw [if_neg empty]
    exact .pure ⟨⟨rfl, rfl, rfl⟩, .inr (.refl tidy (by rwa [here]))⟩

theorem placeEntry_ends (length : s.length = FSSIZE)
    (present : (s.see i din).pointer i .indirect ≠ 0) (k : Fin NINDIRECT) :
    Ends (placeEntry ((s.see i din).pointer i .indirect) k) s
      (fun x s' => s.Quiet s' ∧ (FSSIZE ≤ x ∧ Full (s.see i din) s.freeblock i {.entry k} ∨
        x = (s'.see i din).pointer i (.entry k) ∧ Places i {.entry k} (s.see i din) s.freeblock (s'.see i din) s'.freeblock))
      fun _ => False := by
  obtain ⟨data, small⟩ := tidy.placed.inside i .indirect present
  have here : (s.see i din).pointer i (.entry k) = (entry (s.disk ((s.see i din).pointer i .indirect)) k).toNat := if_neg present
  refine .bind (rsect_ends (length ▸ small) ?_)
  by_cases empty : entry (s.disk ((s.see i din).pointer i .indirect)) k = 0
  · rw [if_pos empty]
    have hole : (s.see i din).pointer i (.entry k) = 0 := by
      rw [here, empty]
      rfl
    have grown : max s.length ((s.see i din).pointer i .indirect + 1) = s.length := Nat.max_eq_left (length ▸ small)
    refine .bind (.bind (.get (.bind (.modify (.pure (.bind (.modify (.pure ⟨⟨grown, rfl, rfl⟩, ?_⟩))))))))
    by_cases room : s.freeblock < FSSIZE
    · right
      rw [see_write data rfl]
      have pointer := pointer_setEntry tidy.placed present room k
      refine ⟨?_, .attach tidy room hole pointer (fun b low => ?_) (fun b high => ?_) (fun j t content there => ?_)
        (fun _ _ => rfl) ⟨_, rfl⟩⟩
      · change _ = ((s.see i din).write _ (setEntry ((s.see i din).disk _) k _)).pointer i (.entry k)
        rw [pointer, if_pos ⟨rfl, rfl⟩]
      · exact update_of_ne (by omega) ..
      · have := tidy.below i .indirect
        exact update_of_ne (by omega) ..
      · refine update_of_ne (fun same => content ?_) ..
        exact (tidy.placed.exclusive j i t .indirect there same).2
    · left
      have last : FSSIZE ≤ s.freeblock := Nat.not_lt.mp room
      exact ⟨last, full_of_empty last (Finset.mem_singleton_self _) hole⟩
  · rw [if_neg empty]
    refine .pure ⟨⟨rfl, rfl, rfl⟩, .inr ⟨here.symm, .refl tidy fun zero => empty ?_⟩⟩
    rw [here] at zero
    exact UInt32.toNat.inj zero

theorem locate_ends (length : s.length = FSSIZE) (bound : fbn < MAXFILE) :
    Ends (locate din fbn) s (fun found s' => s.Quiet s' ∧ (FSSIZE ≤ found.2 ∧ Full (s.see i din) s.freeblock i (route fbn) ∨
        found.2 = (s'.see i found.1).pointer i (slotAt fbn) ∧
          Places i (route fbn) (s.see i din) s.freeblock (s'.see i found.1) s'.freeblock))
      fun _ => Full (s.see i din) s.freeblock i (route fbn) := by
  unfold locate
  by_cases direct : fbn < NDIRECT
  · have slot : addrSlot fbn = slotAt fbn := by rw [addrSlot, dif_pos direct, slotAt_direct direct]
    have way : route fbn = {addrSlot fbn} := by rw [route, if_pos direct, slot]
    rw [if_pos direct, way, ← slot]
    refine .bind ((place_ends tidy (Nat.le_of_lt direct)).mono (fun din' s' laid => .pure ⟨laid.1, ?_⟩) fun _ => False.elim)
    refine laid.2.imp_right fun places => ⟨?_, places⟩
    rw [Mount.pointer, see_inode_self, pointer_addrSlot _ _ (Nat.le_of_lt direct)]
  · have below := entry_lt direct bound
    have slot : slotAt fbn = .entry ⟨fbn - NDIRECT, below⟩ := slotAt_entry direct bound
    have way : route fbn = {addrSlot NDIRECT} ∪ {.entry ⟨fbn - NDIRECT, below⟩} := by
      rw [route, if_neg direct, slot]
      rfl
    have apart : Disjoint ({addrSlot NDIRECT} : Finset Slot) {.entry ⟨fbn - NDIRECT, below⟩} := by
      rw [Finset.disjoint_singleton]
      simp [addrSlot]
    rw [if_neg direct, way, slot]
    refine .bind ((place_ends tidy (Nat.le_refl _)).mono (fun din' s' laid => .bind ?_) fun _ => False.elim)
    obtain ⟨quiet, placed⟩ := laid
    have length' : s'.length = FSSIZE := quiet.1.trans length
    rcases placed with ⟨beyond, full⟩ | places
    · exact .bind (rsect_beyond (length'.trans_le beyond) (full.mono Finset.subset_union_left))
    · have indirect : din'.addr NDIRECT = (s'.see i din').pointer i .indirect := by
        rw [Mount.pointer, see_inode_self]
        rfl
      have present : (s'.see i din').pointer i .indirect ≠ 0 := places.filled _ (Finset.mem_singleton_self _)
      rw [indirect]
      refine (placeEntry_ends places.tidy length' present ⟨fbn - NDIRECT, below⟩).mono (fun x s'' laid => .pure ?_) fun _ => False.elim
      obtain ⟨quiet', entered⟩ := laid
      constructor
      · exact ⟨quiet'.1.trans quiet.1, quiet'.2.1.trans quiet.2.1, quiet'.2.2.trans quiet.2.2⟩
      · refine entered.imp (fun full => ⟨full.1, ?_⟩) fun placed => ⟨placed.1, places.trans placed.2 apart⟩
        replace full := full.2
        unfold Full at full ⊢
        rw [places.card_missing apart, ← Nat.add_assoc, ← places.count]
        exact full

end

end

/-! ## The contents so far -/

/-- The image holds these bytes for the inodes, and has a block for each part of them and no other. -/
structure Holds (v : Mount sb) (free : Nat) (content : Fin sb.ninodes → List UInt8) : Prop where
  tidy : Tidy v free
  fits : ∀ i, (content i).length ≤ MAXFILE * BSIZE
  exact : ∀ i bn, bn < MAXFILE → (v.pointer i (slotAt bn) ≠ 0 ↔ bn * BSIZE < (content i).length)
  indirect : ∀ i, v.pointer i .indirect ≠ 0 ↔ NDIRECT * BSIZE < (content i).length
  count : free = nmeta + total (fun bytes => need bytes.length) content
  bytes : ∀ i, slice (v.byte i) 0 (content i).length = content i

/-- mkfs has the room for them. -/
def Fits (content : Fin sb.ninodes → List UInt8) : Prop :=
  (∀ i, (content i).length ≤ MAXFILE * BSIZE) ∧ nmeta + total (fun bytes => need bytes.length) content ≤ FSSIZE

variable {v v' : Mount sb} {i j : Fin sb.ninodes} {free free' off x : Nat} {content content' : Fin sb.ninodes → List UInt8}
  {piece : List UInt8}

theorem need_mono {z z' : Nat} (le : z ≤ z') : need z ≤ need z' := by
  unfold need
  have : (z + BSIZE - 1) / BSIZE ≤ (z' + BSIZE - 1) / BSIZE := Nat.div_le_div_right (by omega)
  split <;> split <;> omega

theorem Fits.mono (fits : Fits content') (less : ∀ i, (content i).length ≤ (content' i).length) : Fits content := by
  have sum : total (fun bytes => need bytes.length) content ≤ total (fun bytes => need bytes.length) content' :=
    total_le_total fun i => need_mono (less i)
  have := fits.2
  exact ⟨fun i => Nat.le_trans (less i) (fits.1 i), by omega⟩

theorem Holds.mapped (holds : Holds v free content) (inside : x < (content j).length) : v.Mapped j x := by
  have bound : x < MAXFILE * BSIZE := Nat.lt_of_lt_of_le inside (holds.fits j)
  refine ⟨bound, (holds.exact j _ (by rwa [Nat.div_lt_iff_lt_mul (by decide)])).mpr ?_⟩
  have := div_mul_le_self x BSIZE
  omega

theorem card_missing_singleton (v : Mount sb) (i : Fin sb.ninodes) (s : Slot) :
    (missing v i {s}).card = if v.pointer i s = 0 then 1 else 0 := by
  rw [missing, Finset.filter_singleton]
  split <;> rfl

theorem card_missing_pair (v : Mount sb) (i : Fin sb.ninodes) {s t : Slot} (apart : s ≠ t) :
    (missing v i {s, t}).card = (if v.pointer i s = 0 then 1 else 0) + if v.pointer i t = 0 then 1 else 0 := by
  have parts : missing v i ({s} ∪ {t}) = missing v i {s} ∪ missing v i {t} := filter_union ..
  have separate : Disjoint (missing v i {s}) (missing v i {t}) := disjoint_filter_filter (Finset.disjoint_singleton.mpr apart)
  rw [Finset.insert_eq, parts, card_union_of_disjoint separate, card_missing_singleton, card_missing_singleton]

theorem Holds.need_add (holds : Holds v free content) (inside : (content i).length / BSIZE < MAXFILE) {n : Nat} (some : 0 < n)
    (short : (content i).length % BSIZE + n ≤ BSIZE) :
    need ((content i).length + n) = need (content i).length + (missing v i (route ((content i).length / BSIZE))).card := by
  have hole : v.pointer i (slotAt ((content i).length / BSIZE)) = 0 ↔ (content i).length % BSIZE = 0 := by
    have := holds.exact i _ inside
    simp only [BSIZE] at *
    omega
  have last : v.pointer i .indirect = 0 ↔ (content i).length ≤ NDIRECT * BSIZE := by
    have := holds.indirect i
    omega
  have blocks : ((content i).length + n + BSIZE - 1) / BSIZE = ((content i).length + BSIZE - 1) / BSIZE +
      if (content i).length % BSIZE = 0 then 1 else 0 := by
    split
    · simp only [BSIZE] at *
      omega
    · simp only [BSIZE] at *
      omega
  rw [need, need, blocks]
  by_cases direct : (content i).length / BSIZE < NDIRECT
  · rw [route, if_pos direct]
    simp only [card_missing_singleton, hole]
    have after : (content i).length + n ≤ NDIRECT * BSIZE := by
      simp only [BSIZE] at *
      omega
    rw [if_neg (Nat.not_lt_of_le after), if_neg (show ¬ NDIRECT * BSIZE < (content i).length by omega)]
    omega
  · rw [route, if_neg direct]
    simp only [card_missing_pair _ _ (slotAt_ne_indirect inside).symm, hole, last]
    have low := (Nat.le_div_iff_mul_le (by decide)).mp (Nat.not_lt.mp direct)
    rw [if_pos (show NDIRECT * BSIZE < (content i).length + n by omega)]
    by_cases before : NDIRECT * BSIZE < (content i).length
    · rw [if_pos before, if_neg (Nat.not_le_of_lt before)]
      omega
    · rw [if_neg before, if_pos (Nat.not_lt.mp before)]
      omega

theorem Holds.total_grow (holds : Holds v free content) (inside : (content i).length / BSIZE < MAXFILE) (some : 0 < piece.length)
    (short : (content i).length % BSIZE + piece.length ≤ BSIZE) :
    nmeta + total (fun bytes => need bytes.length) (update content i (content i ++ piece)) =
      free + (missing v i (route ((content i).length / BSIZE))).card := by
  have moved := total_update (fun bytes : List UInt8 => need bytes.length) content i (content i ++ piece)
  have more := holds.need_add inside some short
  have := holds.count
  rw [length_append] at moved
  omega

theorem Tidy.write (tidy : Tidy v free) {bn : Nat} (bound : bn < MAXFILE) (block : Bytes) :
    Tidy (v.write (v.pointer i (slotAt bn)) block) free where
  placed := tidy.placed.congr fun j s _ => tidy.placed.write bound block j s
  below j s := by
    rw [tidy.placed.write bound]
    exact tidy.below j s
  blank b high := by
    have := tidy.below i (slotAt bn)
    rw [← tidy.blank b high]
    exact update_of_ne (by omega) ..
  start := tidy.start
  room := tidy.room

section

variable (places : Places i (route ((content i).length / BSIZE)) v free v' free')
include places

theorem Places.exact (holds : Holds v free content)
    (inside : (content i).length / BSIZE < MAXFILE) (some : 0 < piece.length)
    (short : (content i).length % BSIZE + piece.length ≤ BSIZE) {bn : Nat} (bound : bn < MAXFILE) :
    v'.pointer i (slotAt bn) ≠ 0 ↔ bn * BSIZE < (content i ++ piece).length := by
  rw [length_append]
  by_cases here : bn = (content i).length / BSIZE
  · have filled := places.filled (slotAt bn) (by rw [here, route]; split <;> simp)
    have := div_mul_le_self (content i).length BSIZE
    rw [here] at filled ⊢
    exact ⟨fun _ => by omega, fun _ => filled⟩
  · have outside : slotAt bn ∉ route ((content i).length / BSIZE) := by
      have other : slotAt bn ≠ slotAt ((content i).length / BSIZE) := fun same => here (slotAt_inj bound inside same)
      unfold route
      split <;> simp [other, slotAt_ne_indirect bound]
    rw [places.pointer_of_notMem outside, holds.exact i bn bound]
    simp only [BSIZE] at *
    omega

theorem Places.indirect (holds : Holds v free content)
    (some : 0 < piece.length) (short : (content i).length % BSIZE + piece.length ≤ BSIZE) :
    v'.pointer i .indirect ≠ 0 ↔ NDIRECT * BSIZE < (content i ++ piece).length := by
  rw [length_append]
  by_cases direct : (content i).length / BSIZE < NDIRECT
  · have outside : Slot.indirect ∉ route ((content i).length / BSIZE) := by
      rw [route, if_pos direct, slotAt_direct direct]
      simp
    rw [places.pointer_of_notMem outside, holds.indirect i]
    simp only [BSIZE] at *
    omega
  · have filled := places.filled .indirect (by rw [route, if_neg direct]; simp)
    have low := (Nat.le_div_iff_mul_le (by decide)).mp (Nat.not_lt.mp direct)
    exact ⟨fun _ => by omega, fun _ => filled⟩

end

theorem Places.byte (places : Places i (route off) v free v' free') (mapped : v.Mapped j x) :
    v'.Mapped j x ∧ v'.byte j x = v.byte j x := by
  have same := places.pointer_eq mapped.2
  refine ⟨⟨mapped.1, same ▸ mapped.2⟩, ?_⟩
  rw [Mount.byte, same, places.keeps j _ (slotAt_ne_indirect mapped.index) mapped.2, Mount.byte]

theorem Holds.grow (holds : Holds v free content) (inside : (content i).length / BSIZE < MAXFILE) (some : 0 < piece.length)
    (short : (content i).length % BSIZE + piece.length ≤ BSIZE)
    (places : Places i (route ((content i).length / BSIZE)) v free v' free') :
    Holds (v'.write (v'.pointer i (slotAt ((content i).length / BSIZE)))
      (splice (v'.disk (v'.pointer i (slotAt ((content i).length / BSIZE)))) ((content i).length % BSIZE) piece)) free'
      (update content i (content i ++ piece)) := by
  have first : v'.Mapped i (content i).length := by
    refine ⟨(Nat.div_lt_iff_lt_mul (by decide)).mp inside, ?_⟩
    rw [places.exact holds inside some short inside, length_append]
    have := div_mul_le_self (content i).length BSIZE
    omega
  have pointer := places.tidy.placed.write (i := i) inside
    (splice (v'.disk (v'.pointer i (slotAt ((content i).length / BSIZE)))) ((content i).length % BSIZE) piece)
  refine ⟨places.tidy.write inside _, fun j => ?_, fun j bn bound => ?_, fun j => ?_, ?_, fun j => ?_⟩
  · by_cases mine : j = i
    · rw [mine, update_self, length_append]
      simp only [BSIZE] at *
      omega
    · rw [update_of_ne mine]
      exact holds.fits j
  · rw [pointer]
    by_cases mine : j = i
    · rw [mine, update_self]
      exact places.exact holds inside some short bound
    · rw [update_of_ne mine, (places.pointers j _).resolve_left fun here => mine here.1]
      exact holds.exact j bn bound
  · rw [pointer]
    by_cases mine : j = i
    · rw [mine, update_self]
      exact places.indirect holds some short
    · rw [update_of_ne mine, (places.pointers j _).resolve_left fun here => mine here.1]
      exact holds.indirect j
  · rw [holds.total_grow inside some short]
    exact places.count
  · have old (x : Nat) (before : x < (content j).length) : (v'.write (v'.pointer i (slotAt ((content i).length / BSIZE)))
        (splice (v'.disk (v'.pointer i (slotAt ((content i).length / BSIZE)))) ((content i).length % BSIZE) piece)).byte j x =
        v.byte j x := by
      obtain ⟨mapped, same⟩ := places.byte (holds.mapped before)
      rw [places.tidy.placed.byte_write first short mapped, if_neg, same]
      rintro ⟨rfl, low, -⟩
      omega
    by_cases mine : j = i
    · subst mine
      rw [update_self, length_append, slice_add]
      congr 1
      · rw [← holds.bytes j, length_slice]
        exact slice_congr fun x _ high => old x (by omega)
      · apply ext_getElem?
        intro t
        by_cases low : t < piece.length
        · have mapped : v'.Mapped j ((content j).length + t) := by
            have index : ((content j).length + t) / BSIZE = (content j).length / BSIZE := by
              simp only [BSIZE] at *
              omega
            refine ⟨?_, by rw [index]; exact first.2⟩
            simp only [BSIZE] at *
            omega
          rw [getElem?_slice low, Nat.zero_add, places.tidy.placed.byte_write first short mapped,
            if_pos ⟨rfl, by omega, by omega⟩, Nat.add_sub_cancel_left, getD_eq_getElem?_getD, List.getElem?_eq_getElem low]
          rfl
        · rw [List.getElem?_eq_none (by simp; omega), List.getElem?_eq_none (by omega)]
    · rw [update_of_ne mine]
      rw [← holds.bytes j, length_slice]
      exact slice_congr fun x _ high => old x (by omega)

theorem Placed.pointer_congr (placed : Placed v) (addrs : ∀ j, (v'.inode j).addrs = (v.inode j).addrs)
    (disk : ∀ b, sb.dataStart ≤ b → v'.disk b = v.disk b) (j : Fin sb.ninodes) (s : Slot) : v'.pointer j s = v.pointer j s := by
  have fields (t : Slot) : (v'.inode j).pointer v'.disk t = (v.inode j).pointer v'.disk t := by
    cases t <;> simp [Dinode.pointer, Dinode.addr, addrs]
  rw [Mount.pointer, fields]
  exact Dinode.pointer_congr (fun present => disk _ (placed.inside j .indirect present).1) s

theorem Holds.congr (holds : Holds v free content) (addrs : ∀ j, (v'.inode j).addrs = (v.inode j).addrs)
    (disk : ∀ b, sb.dataStart ≤ b → v'.disk b = v.disk b) : Holds v' free content := by
  have pointer := Placed.pointer_congr holds.tidy.placed addrs disk
  refine ⟨⟨holds.tidy.placed.congr fun j s _ => pointer j s, fun j s => ?_, fun b high => ?_, holds.tidy.start, holds.tidy.room⟩,
    holds.fits, fun j bn bound => ?_, fun j => ?_, holds.count, fun j => ?_⟩
  · rw [pointer]
    exact holds.tidy.below j s
  · rw [disk b (Nat.le_trans holds.tidy.start high)]
    exact holds.tidy.blank b high
  · rw [pointer]
    exact holds.exact j bn bound
  · rw [pointer]
    exact holds.indirect j
  · rw [← holds.bytes j, length_slice]
    refine slice_congr fun x _ high => ?_
    have there := holds.mapped (show x < (content j).length by omega)
    rw [byte, pointer, disk _ (holds.tidy.placed.inside j _ there.2).1, byte]

theorem assert_ends {s : Image} {condition : Bool} {post : Unit → Image → Prop} {fails : Exit → Prop}
    (passes : condition = true → post () s) (stops : condition = false → fails .assertion) : Ends
    (assert condition) s post fails := by
  cases condition with
  | false => exact .throw (stops rfl)
  | true => exact .pure (passes rfl)

/-- The dinode in `din` and the data blocks have grown, to these contents. -/
structure Appended (i : Fin sb.ninodes) (content : Fin sb.ninodes → List UInt8) (s : Image) (din : Dinode) (s' : Image)
    (din' : Dinode) : Prop where
  quiet : s.Quiet s'
  low : ∀ b, b < sb.dataStart → s'.disk b = s.disk b
  fields : ∃ addrs, din' = { din with addrs }
  holds : Holds (s'.see i din') s'.freeblock content

theorem Appended.trans {s s' s'' : Image} {din din' din'' : Dinode} (first : Appended i content s din s' din')
    (second : Appended i content' s' din' s'' din'') : Appended i content' s din s'' din'' where
  quiet := ⟨second.quiet.1.trans first.quiet.1, second.quiet.2.1.trans first.quiet.2.1, second.quiet.2.2.trans first.quiet.2.2⟩
  low b below := (second.low b below).trans (first.low b below)
  fields := by
    obtain ⟨_, fields⟩ := first.fields
    obtain ⟨addrs', fields'⟩ := second.fields
    exact ⟨addrs', by rw [fields', fields]⟩
  holds := second.holds

theorem appendRound_ends {s : Image} {din : Dinode} (holds : Holds (s.see i din) s.freeblock content) (length : s.length = FSSIZE)
    (some : 0 < piece.length) (short : (content i).length % BSIZE + piece.length ≤ BSIZE) :
    Ends (appendRound din (content i).length piece) s
      (fun din' s' => Appended i (update content i (content i ++ piece)) s din s' din')
      fun _ => ¬ Fits (update content i (content i ++ piece)) := by
  refine .bind (assert_ends (fun inside => ?_) fun outside fits => ?_)
  · have inside := of_decide_eq_true inside
    have stuck (full : Full (s.see i din) s.freeblock i (route ((content i).length / BSIZE))) :
        ¬ Fits (update content i (content i ++ piece)) := by
      intro fits
      have := fits.2
      rw [holds.total_grow inside some short] at this
      unfold Full at full
      omega
    refine .bind ((locate_ends holds.tidy length inside).mono (fun found s' ⟨quiet, located⟩ => .bind ?_) fun _ => stuck)
    have length' : s'.length = FSSIZE := quiet.1.trans length
    rcases located with ⟨beyond, full⟩ | ⟨here, places⟩
    · exact rsect_beyond (length'.trans_le beyond) (stuck full)
    · have present := (places.exact holds inside some short inside).mpr (by
        rw [length_append]
        have := div_mul_le_self (content i).length BSIZE
        omega)
      rw [← here] at present
      obtain ⟨data, small⟩ := places.tidy.placed.inside i _ (here ▸ present)
      rw [← here] at data small
      have grown : max s'.length (found.2 + 1) = s.length := by
        rw [length', length]
        exact Nat.max_eq_left small
      refine rsect_ends (length' ▸ small) (.bind (.modify (.pure ⟨⟨grown, quiet.2⟩, fun b below => ?_, ?_, ?_⟩)))
      · change update s'.disk _ _ b = _
        rw [update_of_ne (by omega)]
        exact places.low b below
      · obtain ⟨addrs, fields⟩ := places.fields
        rw [see_inode_self, see_inode_self] at fields
        exact ⟨addrs, fields⟩
      · have grow := holds.grow inside some short places
        rw [← here] at grow
        rw [see_write data rfl]
        exact grow
  · have bound := fits.1 i
    have beyond := of_decide_eq_false outside
    rw [Nat.div_lt_iff_lt_mul (by decide)] at beyond
    rw [update_self, length_append] at bound
    omega

theorem length_update_append_le (content : Fin sb.ninodes → List UInt8) (i : Fin sb.ninodes) (p rest : List UInt8)
    (j : Fin sb.ninodes) :
    (update content i (content i ++ p) j).length ≤ (update content i (content i ++ (p ++ rest)) j).length := by
  by_cases mine : j = i
  · rw [mine, update_self, update_self]
    simp
  · rw [update_of_ne mine, update_of_ne mine]

theorem update_append_append (content : Fin sb.ninodes → List UInt8) (i : Fin sb.ninodes) (p rest : List UInt8) :
    update (update content i (content i ++ p)) i (update content i (content i ++ p) i ++ rest) =
      update content i (content i ++ (p ++ rest)) := by
  rw [update_idem, update_self, append_assoc]

theorem Appended.stop {s : Image} {din : Dinode} (holds : Holds (s.see i din) s.freeblock content) :
    Appended i (update content i (content i ++ [])) s din s din := by
  rw [append_nil, update_eq_self]
  exact ⟨⟨rfl, rfl, rfl⟩, fun _ _ => rfl, ⟨_, rfl⟩, holds⟩

theorem appendLoop_ends {s : Image} {din : Dinode} {fuel : Nat} {p : List UInt8} (holds : Holds (s.see i din) s.freeblock content)
    (length : s.length = FSSIZE) (enough : p.length ≤ fuel) : Ends (appendLoop fuel din (content i).length p) s
      (fun din' s' => ∃ last, din' = { last with size := .ofNat (content i ++ p).length } ∧
        Appended i (update content i (content i ++ p)) s din s' last)
      fun _ => ¬ Fits (update content i (content i ++ p)) := by
  induction fuel generalizing s din content p with
  | zero =>
    have none : p = [] := List.eq_nil_of_length_eq_zero (by omega)
    subst none
    exact .pure ⟨din, by rw [append_nil], .stop holds⟩
  | succ _ ih =>
    unfold appendLoop
    by_cases none : p = []
    · subst none
      exact .pure ⟨din, by rw [append_nil], .stop holds⟩
    rw [if_neg none]
    have some : p.length ≠ 0 := fun zero => none (List.eq_nil_of_length_eq_zero zero)
    have taken : (p.take (chunk (content i).length p.length)).length = chunk (content i).length p.length := by
      rw [List.length_take, Nat.min_eq_left (chunk_le ..)]
    have parts := List.take_append_drop (chunk (content i).length p.length) p
    have positive := chunk_pos (content i).length some
    have next : (content i).length + chunk (content i).length p.length =
        (update content i (content i ++ p.take (chunk (content i).length p.length)) i).length := by
      rw [update_self, length_append, taken]
    have whole := update_append_append content i (p.take (chunk (content i).length p.length))
      (p.drop (chunk (content i).length p.length))
    rw [parts] at whole
    rw [next]
    refine .bind ((appendRound_ends holds length (by rwa [taken]) (by rw [taken]; exact chunk_fits ..)).mono
      (fun din' s' first => ?_) fun _ stuck fits => stuck (fits.mono fun j => ?_))
    · have later := ih (p := p.drop (chunk (content i).length p.length)) first.holds (first.quiet.1.trans length)
        (by rw [List.length_drop]; omega)
      rw [whole] at later
      refine later.returns fun din'' s'' ⟨last, size, second⟩ => ⟨last, ?_, first.trans second⟩
      rw [size, update_self, append_assoc, parts]
    · have longer := length_update_append_le content i (p.take (chunk (content i).length p.length))
        (p.drop (chunk (content i).length p.length)) j
      rwa [parts] at longer

end Xv6.Volume.Mkfs
