import Xv6.Volume.Image

namespace Xv6.Volume.Mkfs

open Data Function List

/-! Whole runs of mkfs, for lists of files whose inodes have room in the inode
blocks. Between two appends every dinode is the last one written, and the image
holds the bytes so far. -/

/-- `winode` for an inode of the image. -/
def Image.put (s : Image) (i : Fin sb.ninodes) (d : Dinode) : Image :=
  { s with disk := setDinode sb s.disk i d, written := update s.written i (some d) }

structure Stage (s : Image) (content : Fin sb.ninodes → List UInt8) : Prop where
  length : s.length = FSSIZE
  super : s.disk 1 = superblock
  holds : Holds (mount sb s.disk) s.freeblock content
  sizes : ∀ i : Fin sb.ninodes, (dinode sb s.disk i).size.toNat = (content i).length
  intact : ∀ i : Fin sb.ninodes, 1 ≤ i.val → i.val < s.freeinode → s.written i = some (dinode sb s.disk i)
  kinds : ∀ i : Fin sb.ninodes, 1 ≤ i.val → i.val < s.freeinode →
    (dinode sb s.disk i).type = (if i.val = ROOTINO then T_DIR else T_FILE) ∧ (dinode sb s.disk i).nlink = 1
  unused : ∀ i : Fin sb.ninodes, s.freeinode ≤ i.val → dinode sb s.disk i = {}

section

variable {s s' : Image} {i j : Fin sb.ninodes} {d : Dinode} {content content' : Fin sb.ninodes → List UInt8}
    {fails : Exit → Prop}

theorem iblock_inside (i : Fin sb.ninodes) : sb.iblock i < FSSIZE := by
  have := iblock_lt i
  have : sb.bmapstart < FSSIZE := by decide
  omega

theorem iblock_lt_dataStart (i : Fin sb.ninodes) : sb.iblock i < sb.dataStart := by
  have := iblock_lt i
  have := bmapstart_lt_dataStart sb
  omega

theorem rinode_ends (length : s.length = FSSIZE) {post : Dinode → Image → Prop} (holds : post (dinode sb s.disk i) s) : Ends
    (rinode i) s post fails :=
  .bind (rsect_ends (length ▸ iblock_inside i) (.pure holds))

theorem winode_ends (length : s.length = FSSIZE) {post : Unit → Image → Prop} (holds : post () (s.put i d)) : Ends
    (winode i d) s post fails := by
  have inside : sb.iblock i < s.length := length ▸ iblock_inside i
  refine .bind (rsect_ends inside (.bind (.modify (.modify ?_))))
  have grown : max s.length (sb.iblock i + 1) = s.length := Nat.max_eq_left inside
  rw [grown]
  exact holds

theorem put_dinode_self : dinode sb (s.put i d).disk i = d := dinode_setDinode_self

theorem put_dinode_of_ne (other : j ≠ i) : dinode sb (s.put i d).disk j = dinode sb s.disk j :=
  dinode_setDinode_of_ne fun same => other (Fin.ext same)

theorem put_written_self : (s.put i d).written i = some d := update_self ..

theorem put_written_of_ne (other : j ≠ i) : (s.put i d).written j = s.written j :=
  update_of_ne (fun same => other (Fin.ext same)) ..

theorem put_disk {b : Nat} (high : sb.bmapstart ≤ b) : (s.put i d).disk b = s.disk b := by
  have := iblock_lt i
  exact setDinode_of_ne (by omega)

theorem put_super : (s.put i d).disk 1 = s.disk 1 := by
  have : 1 < sb.inodestart := by decide
  have : sb.inodestart ≤ sb.iblock i := Nat.le_add_left ..
  have apart : 1 ≠ sb.iblock i := by omega
  change setDinode sb s.disk i d 1 = s.disk 1
  exact setDinode_of_ne apart

theorem Holds.put {din : Dinode} (holds : Holds (s.see i din) s.freeblock content) (kept : d.addrs = din.addrs) :
    Holds (mount sb (s.put i d).disk) (s.put i d).freeblock content := by
  refine holds.congr (fun j => ?_) fun b data => put_disk (Nat.le_trans (Nat.le_of_lt (bmapstart_lt_dataStart sb)) data)
  by_cases mine : j = i
  · rw [mine, see_inode_self, ← kept]
    exact congrArg Dinode.addrs put_dinode_self
  · rw [see_inode_of_ne mine]
    exact congrArg Dinode.addrs (put_dinode_of_ne mine)

theorem see_dinode (s : Image) (i : Fin sb.ninodes) : s.see i (dinode sb s.disk i) = mount sb s.disk := by
  unfold Image.see Mount.setInode
  have same : update (mount sb s.disk).inode i (dinode sb s.disk i) = (mount sb s.disk).inode := update_eq_self ..
  rw [same]

theorem Stage.appended (stage : Stage s content) {last : Dinode} (used : 1 ≤ i.val ∧ i.val < s.freeinode)
    (appended : Appended i content' s (dinode sb s.disk i) s' last) (others : ∀ j, j ≠ i → content' j = content j) :
    Stage (s'.put i { last with size := .ofNat (content' i).length }) content' := by
  have dinodes (j : Fin sb.ninodes) : dinode sb s'.disk j = dinode sb s.disk j :=
    dinode_congr (appended.low _ (iblock_lt_dataStart j))
  have others' (j : Fin sb.ninodes) (other : j ≠ i) :
      dinode sb (s'.put i { last with size := .ofNat (content' i).length }).disk j = dinode sb s.disk j :=
    (put_dinode_of_ne other).trans (dinodes j)
  obtain ⟨_, fields⟩ := appended.fields
  have holds := appended.holds.put (d := { last with size := .ofNat (content' i).length }) rfl
  refine ⟨appended.quiet.1.trans stage.length, ?_, holds, fun j => ?_, fun j low high => ?_, fun j low high => ?_,
    fun j high => ?_⟩
  · rw [put_super, appended.low 1 (by decide)]
    exact stage.super
  · by_cases mine : j = i
    · rw [mine, put_dinode_self]
      have small : MAXFILE * BSIZE < UInt32.size := by decide
      have fits := holds.fits i
      exact UInt32.toNat_ofNat_of_lt' (by omega)
    · rw [others' j mine, others j mine]
      exact stage.sizes j
  · by_cases mine : j = i
    · rw [mine, put_dinode_self, put_written_self]
    · have kept : s'.written = s.written := appended.quiet.2.2
      rw [others' j mine, ← stage.intact j low (by rw [← appended.quiet.2.1]; exact high), ← kept]
      exact put_written_of_ne mine
  · by_cases mine : j = i
    · rw [mine, put_dinode_self, fields]
      exact stage.kinds i used.1 used.2
    · rw [others' j mine]
      exact stage.kinds j low (by rw [← appended.quiet.2.1]; exact high)
  · have unused : s.freeinode ≤ j.val := by
      rw [← appended.quiet.2.1]
      exact high
    have other : j ≠ i := fun same => by
      rw [same] at unused
      omega
    rw [others' j other]
    exact stage.unused j unused

theorem iappend_ends {p : List UInt8} (stage : Stage s content) (used : 1 ≤ i.val ∧ i.val < s.freeinode) : Ends (iappend i p) s
      (fun _ s' => s'.freeinode = s.freeinode ∧ Stage s' (update content i (content i ++ p)))
      fun _ => ¬ Fits (update content i (content i ++ p)) := by
  have holds : Holds (s.see i (dinode sb s.disk i)) s.freeblock content := by
    rw [see_dinode]
    exact stage.holds
  refine .bind (rinode_ends stage.length ?_)
  rw [stage.sizes i]
  refine .bind ((appendLoop_ends holds stage.length (Nat.le_refl _)).returns fun din s' ⟨last, size, appended⟩ => ?_)
  refine winode_ends (appended.quiet.1.trans stage.length) ⟨appended.quiet.2.1, ?_⟩
  have written := stage.appended used appended fun j other => update_of_ne other ..
  rw [update_self] at written
  rw [size]
  exact written

theorem ialloc_ends {type : UInt16} (stage : Stage s content) (next : i.val = s.freeinode)
    (kind : type = if i.val = ROOTINO then T_DIR else T_FILE) :
    Ends (ialloc type) s (fun inum s' => inum = i.val ∧ s'.freeinode = i.val + 1 ∧ Stage s' content) fun _ => False := by
  refine .bind (.get (.bind (.modify (.bind ?_))))
  rw [← next]
  have blank := stage.unused i (Nat.le_of_eq next.symm)
  have length : ({ s with freeinode := i.val + 1 } : Image).length = FSSIZE := stage.length
  refine winode_ends length ?_
  refine .pure ⟨rfl, rfl, stage.length, ?_, ?_, fun j => ?_, fun j low high => ?_, fun j low high => ?_, fun j high => ?_⟩
  · rw [put_super]
    exact stage.super
  · have holds : Holds (({ s with freeinode := i.val + 1 } : Image).see i (dinode sb s.disk i)) s.freeblock content := by
      have same := see_dinode { s with freeinode := i.val + 1 } i
      rw [same]
      exact stage.holds
    refine Holds.put holds ?_
    rw [blank]
  · by_cases mine : j = i
    · rw [mine, put_dinode_self, ← stage.sizes i, blank]
    · rw [put_dinode_of_ne mine]
      exact stage.sizes j
  · by_cases mine : j = i
    · rw [mine, put_dinode_self, put_written_self]
    · have other : j.val ≠ i.val := fun same => mine (Fin.ext same)
      have high : j.val < i.val + 1 := high
      rw [put_dinode_of_ne mine]
      exact (put_written_of_ne mine).trans (stage.intact j low (by omega))
  · by_cases mine : j = i
    · rw [mine, put_dinode_self]
      exact ⟨kind, rfl⟩
    · have other : j.val ≠ i.val := fun same => mine (Fin.ext same)
      have high : j.val < i.val + 1 := high
      rw [put_dinode_of_ne mine]
      exact stage.kinds j low (by omega)
  · have high : i.val + 1 ≤ j.val := high
    have other : j ≠ i := fun same => by
      rw [same] at high
      omega
    rw [put_dinode_of_ne other]
    exact stage.unused j (by omega)

end

/-! ## The arguments, one after the other -/

def root : Fin sb.ninodes := ⟨ROOTINO, by decide⟩

def File.bytes (file : File) : List UInt8 := file.chunks.flatten

/-- The entries of the root directory. -/
def entries (files : List File) : List (Nat × List UInt8) :=
  (ROOTINO, [46]) :: (ROOTINO, [46, 46]) :: files.mapIdx fun k file => (k + 2, skipUnderscore file.name)

/-- What mkfs has written for the files. -/
def contentOf (files : List File) (i : Fin sb.ninodes) : List UInt8 :=
  if i = root then (entries files).flatMap fun e => dirent e.1 e.2
  else if 2 ≤ i.val then (files[i.val - 2]?).elim [] File.bytes
  else []

section

variable {s : Image} {i : Fin sb.ninodes} {files before : List File} {file : File} {content : Fin sb.ninodes → List UInt8}

theorem entries_append : entries (before ++ [file]) = entries before ++ [(before.length + 2, skipUnderscore file.name)] := by
  simp [entries, mapIdx_append]

theorem ne_root {n : Nat} (next : i.val = n + 2) : i ≠ root := by
  rintro rfl
  simp [root, ROOTINO] at next

theorem contentOf_append (file : File) (next : i.val = before.length + 2) :
    contentOf (before ++ [file]) = update (update (contentOf before) root
      (contentOf before root ++ dirent (before.length + 2) (skipUnderscore file.name))) i file.bytes := by
  have apart := ne_root next
  funext j
  by_cases mine : j = i
  · rw [mine, update_self, contentOf, if_neg apart, if_pos (by omega), next]
    simp
  rw [update_of_ne mine]
  by_cases top : j = root
  · rw [top, update_self, contentOf, if_pos rfl, contentOf, if_pos rfl, entries_append, flatMap_append]
    simp
  rw [update_of_ne top, contentOf, if_neg top, contentOf, if_neg top]
  have other : j.val ≠ i.val := fun same => mine (Fin.ext same)
  split
  · by_cases earlier : j.val - 2 < before.length
    · rw [List.getElem?_append_left earlier]
    · rw [List.getElem?_eq_none (by simp; omega), List.getElem?_eq_none (by omega)]
  · rfl

theorem contentOf_next (next : i.val = before.length + 2) : contentOf before i = [] := by
  have apart := ne_root next
  rw [contentOf, if_neg apart, if_pos (by omega), List.getElem?_eq_none (by omega)]
  rfl

theorem contentOf_nil : contentOf [] = update (fun _ => []) root ([] ++ (dirent ROOTINO [46] ++ dirent ROOTINO [46, 46])) := by
  funext i
  by_cases top : i = root
  · rw [top, update_self, contentOf, if_pos rfl]
    rfl
  · rw [update_of_ne top, contentOf, if_neg top]
    simp

theorem length_contentOf_le (before rest : List File) (i : Fin sb.ninodes) :
    (contentOf before i).length ≤ (contentOf (before ++ rest) i).length := by
  unfold contentOf
  split
  · simp [entries, mapIdx_append]
  · split
    · by_cases earlier : i.val - 2 < before.length
      · rw [List.getElem?_append_left earlier]
      · rw [List.getElem?_eq_none (by omega)]
        exact Nat.zero_le _
    · exact Nat.le_refl _

theorem zero_ends {fails : Exit → Prop} (k n : Nat) :
    Ends ((List.range' k n).forM fun i => wsect i fun _ => 0) { length := k } (fun _ s => s = { length := k + n }) fails := by
  induction n generalizing k with
  | zero => exact .pure rfl
  | succ _ ih =>
    rw [range'_succ]
    refine .bind (.modify ?_)
    have grown : max k (k + 1) = k + 1 := Nat.max_eq_right (Nat.le_succ k)
    have same : update (fun _ _ => 0 : Disk) k (fun _ => 0) = fun _ _ => 0 := update_eq_self ..
    simp only [grown, same]
    refine (ih (k + 1)).returns fun _ s state => ?_
    rw [state, Nat.add_assoc, Nat.add_comm 1]

theorem zeroImage_ends {fails : Exit → Prop} (n : Nat) : Ends (zeroImage n) {} (fun _ s => s = { length := n }) fails := by
  unfold zeroImage
  rw [range_eq_range']
  refine (zero_ends 0 n).returns fun _ s state => ?_
  rw [state, Nat.zero_add]

theorem total_nil : total (fun bytes : List UInt8 => need bytes.length) (fun _ : Fin sb.ninodes => []) = 0 := by
  simp [total, need, BSIZE]

theorem Stage.blank : Stage { disk := update (fun _ _ => 0) 1 superblock, length := FSSIZE } fun _ => [] := by
  have inode (i : Fin sb.ninodes) : dinode sb (update (fun _ _ => 0) 1 superblock) i = {} := by
    have : 1 < sb.inodestart := by decide
    have : sb.inodestart ≤ sb.iblock i := Nat.le_add_left ..
    have apart : sb.iblock i ≠ 1 := by omega
    rw [dinode, update_of_ne apart, Dinode.read_zero]
  have pointer (i : Fin sb.ninodes) (s : Slot) :
      (mount sb (update (fun _ _ => 0) 1 superblock)).pointer i s = 0 := by
    have blank : (mount sb (update (fun _ _ => 0) 1 superblock)).inode i = {} := inode i
    rw [Mount.pointer, blank]
    cases s <;> rfl
  have placed : Placed (mount sb (update (fun _ _ => 0) 1 superblock)) :=
    ⟨fun i _ s _ present => absurd (pointer i s) present, fun i s present => absurd (pointer i s) present⟩
  have super : update (fun _ _ => 0 : Disk) 1 superblock 1 = superblock := update_self ..
  refine ⟨rfl, super, ⟨⟨placed, fun i s => ?_, fun b high => ?_, Nat.le_refl _, by decide⟩, fun _ => Nat.zero_le _,
    fun i bn _ => ?_, fun i => ?_, ?_, fun _ => rfl⟩, fun i => ?_, fun i low high => ?_, fun i low high => ?_, fun i _ => inode i⟩
  · rw [pointer]
    decide
  · have low : 1 < nmeta := by decide
    have high : nmeta ≤ b := high
    have apart : b ≠ 1 := by omega
    change update (fun _ _ => 0 : Disk) 1 superblock b = _
    rw [update_of_ne apart]
  · rw [pointer]
    simp
  · rw [pointer]
    simp
  · rw [total_nil]
    rfl
  · rw [inode]
    rfl
  · have high : i.val < 1 := high
    omega
  · have high : i.val < 1 := high
    omega

theorem format_ends : Ends format {} (fun _ s => s.freeinode = 2 ∧ Stage s (contentOf [])) fun _ => ¬ Fits (contentOf []) := by
  refine .bind ((zeroImage_ends FSSIZE).returns fun _ s state => .bind (.modify ?_))
  subst state
  have grown : max FSSIZE (1 + 1) = FSSIZE := by decide
  refine .bind ((ialloc_ends (i := root) .blank rfl rfl).mono (fun inum s ⟨number, count, stage⟩ => ?_) fun _ => False.elim)
  refine .bind (assert_ends (fun _ => ?_) fun differs => absurd number (of_decide_eq_false differs))
  have used : 1 ≤ root.val ∧ root.val < s.freeinode := by
    rw [count]
    decide
  refine .bind ((iappend_ends stage used).mono (fun _ s' ⟨count', stage'⟩ => ?_) fun _ stuck fits => stuck (fits.mono fun j => ?_))
  · have used' : 1 ≤ root.val ∧ root.val < s'.freeinode := count'.symm ▸ used
    have second := iappend_ends (p := dirent ROOTINO [46, 46]) stage' used'
    rw [update_append_append (fun _ => []) root, ← contentOf_nil] at second
    exact second.returns fun _ s'' ⟨count'', stage''⟩ => ⟨count''.trans (count'.trans count), stage''⟩
  · rw [contentOf_nil]
    exact length_update_append_le (fun _ => []) root _ _ j

theorem chunks_ends (chunks : List (List UInt8)) (stage : Stage s content) (used : 1 ≤ i.val ∧ i.val < s.freeinode) :
    Ends (chunks.forM (iappend i)) s
      (fun _ s' => s'.freeinode = s.freeinode ∧ Stage s' (update content i (content i ++ chunks.flatten)))
      fun _ => ¬ Fits (update content i (content i ++ chunks.flatten)) := by
  induction chunks generalizing s content with
  | nil =>
    rw [List.flatten_nil, List.append_nil, update_eq_self]
    exact .pure ⟨rfl, stage⟩
  | cons chunk rest ih =>
    rw [List.flatten_cons]
    refine .bind ((iappend_ends stage used).mono (fun _ s' ⟨count, stage'⟩ => ?_) fun _ stuck fits => stuck (fits.mono fun j => ?_))
    · have later := ih stage' (count.symm ▸ used)
      rw [update_append_append] at later
      exact later.returns fun _ s'' ⟨count', stage''⟩ => ⟨count'.trans count, stage''⟩
    · exact length_update_append_le content i chunk rest.flatten j

theorem addFile_ends (stage : Stage s (contentOf before)) (count : s.freeinode = before.length + 2)
    (room : before.length + 2 < NINODES) :
    Ends (addFile file) s (fun _ s' => s'.freeinode = (before ++ [file]).length + 2 ∧ Stage s' (contentOf (before ++ [file])))
      fun _ => 47 ∈ file.name ∨ file.readable = false ∨ ¬ Fits (contentOf (before ++ [file])) := by
  refine .bind (assert_ends (fun _ => ?_) fun slash => .inl (by simpa using slash))
  by_cases readable : file.readable = true
  · rw [if_pos readable]
    generalize number : (⟨before.length + 2, room⟩ : Fin sb.ninodes) = i
    have next : i.val = before.length + 2 := by rw [← number]
    have apart := ne_root next
    have kind : T_FILE = if i.val = ROOTINO then T_DIR else T_FILE := (if_neg fun same => apart (Fin.ext same)).symm
    refine .bind ((ialloc_ends stage (next.trans count.symm) kind).mono (fun inum s' ⟨inode, count', stage'⟩ => ?_) fun _ => False.elim)
    subst inode
    have top : 1 ≤ root.val ∧ root.val < s'.freeinode := by
      rw [count', next]
      simp [root, ROOTINO]
    have whole := contentOf_append file next
    have empty : update (contentOf before) root (contentOf before root ++ dirent i (skipUnderscore file.name)) i = [] := by
      rw [update_of_ne apart, contentOf_next next]
    rw [← next] at whole
    refine .bind ((iappend_ends stage' top).mono (fun _ s'' ⟨count'', stage''⟩ => ?_) fun _ stuck => .inr (.inr fun fits => ?_))
    · have copied := chunks_ends (i := i) file.chunks stage'' (by omega)
      rw [empty, nil_append, show file.chunks.flatten = file.bytes from rfl, ← whole] at copied
      refine copied.mono (fun _ final ⟨kept, copied⟩ => ⟨?_, copied⟩) fun _ stuck => .inr (.inr stuck)
      rw [kept, count'', count', next, length_append]
      simp
    · refine stuck (fits.mono fun j => ?_)
      rw [whole]
      by_cases mine : j = i
      · rw [mine, empty]
        exact Nat.zero_le _
      · rw [update_of_ne mine]
  · rw [if_neg readable]
    exact .throw (.inr (.inl (by simpa using readable)))

end

/-! ## The finished image -/

theorem bit_foldl_setBit (block : Bytes) (n j : Nat) :
    bit ((List.range n).foldl setBit block) j = (decide (j < n) || bit block j) := by
  induction n with
  | zero => simp
  | succ n ih =>
    rw [range_succ, foldl_append, foldl_cons, foldl_nil, bit_setBit, ih, ← Bool.or_assoc, ← Bool.decide_or]
    have step : j = n ∨ j < n ↔ j < n + 1 := by omega
    rw [decide_eq_decide.mpr step]

/-- The size of the root directory is rounded, and the free map is there. -/
structure Finished (files : List File) (image : Image) : Prop where
  count : image.freeinode = files.length + 2
  super : image.disk 1 = superblock
  holds : Holds (mount sb image.disk) image.freeblock (contentOf files)
  rootSize : (dinode sb image.disk root).size.toNat = ((contentOf files root).length / BSIZE + 1) * BSIZE
  sizes : ∀ i : Fin sb.ninodes, i ≠ root → (dinode sb image.disk i).size.toNat = (contentOf files i).length
  intact : ∀ i : Fin sb.ninodes, 1 ≤ i.val → i.val < image.freeinode → image.written i = some (dinode sb image.disk i)
  kinds : ∀ i : Fin sb.ninodes, 1 ≤ i.val → i.val < image.freeinode →
    (dinode sb image.disk i).type = (if i.val = ROOTINO then T_DIR else T_FILE) ∧ (dinode sb image.disk i).nlink = 1
  map : ∀ b, b < BPB → inUse sb image.disk b = decide (b < image.freeblock)

/-- The arguments that mkfs accepts. -/
def Accepted (files : List File) : Prop := (∀ file ∈ files, 47 ∉ file.name ∧ file.readable = true) ∧ Fits (contentOf files)

section

variable {s : Image} {files : List File}

/-- The image with its free map. -/
def Image.mapped (s : Image) : Image :=
  { s with
    disk := update s.disk sb.bmapstart ((List.range s.freeblock).foldl setBit fun _ => 0)
    length := max s.length (sb.bmapstart + 1) }

theorem mapped_disk {b : Nat} (other : b ≠ sb.bmapstart) : s.mapped.disk b = s.disk b := update_of_ne other ..

theorem mapped_written : s.mapped.written = s.written := rfl

theorem mapped_dinode (i : Fin sb.ninodes) : dinode sb s.mapped.disk i = dinode sb s.disk i :=
  dinode_congr (mapped_disk (Nat.ne_of_lt (iblock_lt i)))

theorem mapped_inUse {b : Nat} (small : b < BPB) : inUse sb s.mapped.disk b = decide (b < s.freeblock) := by
  have place : sb.bblock b = sb.bmapstart := by rw [Superblock.bblock, Nat.div_eq_of_lt small, Nat.zero_add]
  have block : s.mapped.disk sb.bmapstart = (List.range s.freeblock).foldl setBit fun _ => 0 := by
    simp [Image.mapped]
  have clear : bit (fun _ => 0) b = false := by simp [bit]
  rw [inUse, place, Nat.mod_eq_of_lt small, block, bit_foldl_setBit, clear, Bool.or_false]

/-- The dinode of the root directory that mkfs writes last. -/
def rounded (s : Image) : Dinode :=
  { dinode sb s.disk root with size := .ofNat (((dinode sb s.disk root).size.toNat / BSIZE + 1) * BSIZE) }

theorem Stage.finished (stage : Stage s (contentOf files)) (count : s.freeinode = files.length + 2) :
    Finished files (s.put root (rounded s)).mapped := by
  have holds : Holds (mount sb (s.put root (rounded s)).disk) s.freeblock (contentOf files) := by
    have before : Holds (s.see root (dinode sb s.disk root)) s.freeblock (contentOf files) := by
      rw [see_dinode]
      exact stage.holds
    exact before.put rfl
  refine ⟨count, ?_, ?_, ?_, fun i other => ?_, fun i low high => ?_, fun i low high => ?_, fun b small => mapped_inUse small⟩
  · rw [mapped_disk (by decide), put_super, stage.super]
  · refine holds.congr (fun j => congrArg Dinode.addrs (mapped_dinode j)) fun b data => ?_
    have := bmapstart_lt_dataStart sb
    exact mapped_disk (by omega)
  · have bound := stage.holds.fits root
    have limit : MAXFILE * BSIZE + BSIZE < 2 ^ 32 := by decide
    have := Nat.div_mul_le_self (contentOf files root).length BSIZE
    rw [mapped_dinode, put_dinode_self, rounded, stage.sizes root, UInt32.toNat_ofNat', Nat.add_mul, Nat.one_mul]
    exact Nat.mod_eq_of_lt (by omega)
  · rw [mapped_dinode, put_dinode_of_ne other]
    exact stage.sizes i
  · rw [mapped_dinode, mapped_written]
    by_cases top : i = root
    · rw [top, put_dinode_self, put_written_self]
    · rw [put_dinode_of_ne top, put_written_of_ne top]
      exact stage.intact i low high
  · rw [mapped_dinode]
    by_cases top : i = root
    · rw [top, put_dinode_self]
      exact stage.kinds root (by decide) (top ▸ high)
    · rw [put_dinode_of_ne top]
      exact stage.kinds i low high

theorem finish_ends (stage : Stage s (contentOf files)) (count : s.freeinode = files.length + 2) {fails : Exit → Prop} :
    Ends finish s (fun _ image => Finished files image) fails := by
  have small : s.freeblock < BSIZE * 8 := Nat.lt_of_le_of_lt stage.holds.tidy.room (by decide)
  refine .bind (rinode_ends (i := root) stage.length ?_)
  refine .bind (winode_ends (i := root) stage.length (.bind (.get ?_)))
  refine .bind (assert_ends (fun _ => .modify ?_) fun large => absurd small (of_decide_eq_false large))
  exact stage.finished count

theorem main_ends (few : files.length + 2 ≤ NINODES) : Ends (main files) {}
    (fun _ image => Finished files image) fun _ => ¬ Accepted files := by
  refine .bind (format_ends.mono (fun _ s ⟨count, stage⟩ => .bind ?_) fun _ stuck accepted => stuck (accepted.2.mono fun i => ?_))
  · refine (Ends.forM (fun rest s => ∃ before, files = before ++ rest ∧ s.freeinode = before.length + 2 ∧ Stage s (contentOf before))
      ⟨[], rfl, count, stage⟩ fun file rest s ⟨before, split, count, stage⟩ => ?_).returns fun _ s ⟨before, split, count, stage⟩ => ?_
    · have room : before.length + 2 < NINODES := by
        rw [split, length_append, List.length_cons] at few
        omega
      have member : file ∈ files := by
        rw [split]
        simp
      refine (addFile_ends stage count room).mono (fun _ s' ⟨count', stage'⟩ => ⟨before ++ [file], ?_, count', stage'⟩)
        fun _ reason accepted => ?_
      · rw [split, List.append_assoc, List.singleton_append]
      · rcases reason with slash | unreadable | stuck
        · exact (accepted.1 file member).1 slash
        · rw [(accepted.1 file member).2] at unreadable
          contradiction
        · refine stuck (accepted.2.mono fun i => ?_)
          have longer := length_contentOf_le (before ++ [file]) rest i
          rwa [List.append_assoc, List.singleton_append, ← split] at longer
    · rw [List.append_nil] at split
      subst split
      exact finish_ends stage count
  · exact length_contentOf_le [] files i

end

/-! ## The numbers of the inodes, for any number of files -/

section

theorem rsect_freeinode (sec : Nat) : Preserves Image.freeinode (rsect sec) :=
  .bind .get fun _ => .ite (.pure _) (.throw _)

theorem wsect_freeinode (sec : Nat) (buf : Bytes) : Preserves Image.freeinode (wsect sec buf) := .modify fun _ => rfl

theorem assert_freeinode (condition : Bool) : Preserves Image.freeinode (assert condition) := .ite (.pure _) (.throw _)

theorem winode_freeinode (inum : Nat) (ip : Dinode) : Preserves Image.freeinode (winode inum ip) :=
  .bind (rsect_freeinode _) fun _ => .bind (wsect_freeinode _ _) fun _ => .modify fun _ => rfl

theorem rinode_freeinode (inum : Nat) : Preserves Image.freeinode (rinode inum) := .bind (rsect_freeinode _) fun _ => .pure _

theorem nextBlock_freeinode : Preserves Image.freeinode nextBlock :=
  .bind .get fun _ => .bind (.modify fun _ => rfl) fun _ => .pure _

theorem place_freeinode (din : Dinode) (k : Nat) : Preserves Image.freeinode (place din k) :=
  .ite (.bind nextBlock_freeinode fun _ => .pure _) (.pure _)

theorem placeEntry_freeinode (indirect k : Nat) : Preserves Image.freeinode (placeEntry indirect k) :=
  .bind (rsect_freeinode _) fun _ => .ite (.bind nextBlock_freeinode fun _ => .bind (wsect_freeinode _ _) fun _ => .pure _) (.pure _)

theorem locate_freeinode (din : Dinode) (fbn : Nat) : Preserves Image.freeinode (locate din fbn) :=
  .ite (.bind (place_freeinode _ _) fun _ => .pure _)
    (.bind (place_freeinode _ _) fun _ => .bind (placeEntry_freeinode _ _) fun _ => .pure _)

theorem appendRound_freeinode (din : Dinode) (off : Nat) (p : List UInt8) : Preserves Image.freeinode (appendRound din off p) :=
  .bind (assert_freeinode _) fun _ => .bind (locate_freeinode _ _) fun _ => .bind (rsect_freeinode _) fun _ =>
    .bind (wsect_freeinode _ _) fun _ => .pure _

theorem appendLoop_freeinode (fuel : Nat) (din : Dinode) (off : Nat) (p : List UInt8) :
    Preserves Image.freeinode (appendLoop fuel din off p) := by
  induction fuel generalizing din off p with
  | zero => exact .pure _
  | succ _ ih => exact .ite (.pure _) (.bind (appendRound_freeinode _ _ _) fun din => ih din _ _)

theorem iappend_freeinode (inum : Nat) (p : List UInt8) : Preserves Image.freeinode (iappend inum p) :=
  .bind (rinode_freeinode _) fun _ => .bind (appendLoop_freeinode _ _ _ _) fun _ => winode_freeinode _ _

theorem finish_freeinode : Preserves Image.freeinode finish :=
  .bind (rinode_freeinode _) fun _ => .bind (winode_freeinode _ _) fun _ => .bind .get fun _ =>
    .bind (assert_freeinode _) fun _ => wsect_freeinode _ _

theorem addFile_freeinode (file : File) (s : Image) :
    Ends (addFile file) s (fun _ s' => s'.freeinode = s.freeinode + 1) fun _ => True := by
  refine .bind (assert_ends (fun _ => ?_) fun _ => trivial)
  by_cases readable : file.readable = true
  · rw [if_pos readable]
    refine .bind (.bind (.get (.bind (.modify (.bind ((winode_freeinode _ _ _).returns fun _ s' same => .pure ?_))))))
    have copied : Preserves Image.freeinode (file.chunks.forM (iappend s.freeinode)) := .forM fun chunk => iappend_freeinode _ _
    exact .bind ((iappend_freeinode _ _ s').returns fun _ s'' same' => (copied s'').returns fun _ _ same'' =>
      same''.trans (same'.trans same))
  · rw [if_neg readable]
    exact .throw trivial

theorem main_freeinode (files : List File) : Ends (main files) {}
    (fun _ image => image.freeinode = files.length + 2) fun _ => True := by
  refine .bind (format_ends.mono (fun _ s ⟨count, _⟩ => .bind ?_) fun _ _ => trivial)
  refine (Ends.forM (fun rest s => s.freeinode + rest.length = files.length + 2) (by omega) fun file rest s sum =>
    (addFile_freeinode file s).returns fun _ s' next => ?_).returns fun _ s' sum => (finish_freeinode s').returns fun _ _ same =>
      same.trans sum
  rw [List.length_cons] at sum
  omega

end

/-! ## What the kernel relies on -/

structure ForKernel (image : Image) : Prop where
  covered : ∀ (i : Fin sb.ninodes) bn, bn < ((dinode sb image.disk i).size.toNat + BSIZE - 1) / BSIZE →
    bn < MAXFILE ∧ (mount sb image.disk).pointer i (slotAt bn) ≠ 0
  numbers : ∀ inum, 1 ≤ inum → inum < image.freeinode → inum < sb.ninodes ∧ image.written inum = some (dinode sb image.disk inum)
  exclusive : ∀ i j s t, (mount sb image.disk).pointer i s ≠ 0 →
    (mount sb image.disk).pointer i s = (mount sb image.disk).pointer j t → i = j ∧ s = t
  inside : ∀ i s, (mount sb image.disk).pointer i s ≠ 0 →
    nmeta ≤ (mount sb image.disk).pointer i s ∧ (mount sb image.disk).pointer i s < FSSIZE
  bitmap : ∀ b, b < nbitmap * BPB → inUse sb image.disk b = decide (b < image.freeblock)

variable {files before : List File} {image : Image}

theorem length_nameField (name : List UInt8) : (nameField name).length = DIRSIZ := by
  simp [nameField, DIRSIZ]

theorem length_dirent (inum : Nat) (name : List UInt8) : (dirent inum name).length = DIRENT := by
  rw [dirent, length_append, length_word, length_nameField]
  rfl

theorem length_flatMap_dirent (entries : List (Nat × List UInt8)) :
    (entries.flatMap fun e => dirent e.1 e.2).length = DIRENT * entries.length := by
  induction entries with
  | nil => rfl
  | cons _ _ ih =>
    rw [List.flatMap_cons, length_append, length_dirent, ih, List.length_cons, Nat.mul_succ, Nat.add_comm]

theorem length_contentOf_root (files : List File) : (contentOf files root).length = DIRENT * (files.length + 2) := by
  rw [contentOf, if_pos rfl, length_flatMap_dirent]
  simp [entries]

section

variable (few : files.length + 2 ≤ NINODES)
include few

theorem total_contentOf : total (fun bytes => need bytes.length) (contentOf files) =
      need (DIRENT * (files.length + 2)) + (files.map fun file => need file.bytes.length).sum := by
  induction files using reverseRecOn with
  | nil =>
    have dots := total_update (fun bytes : List UInt8 => need bytes.length) (fun _ : Fin sb.ninodes => []) root
      ([] ++ (dirent ROOTINO [46] ++ dirent ROOTINO [46, 46]))
    have none : total (fun bytes : List UInt8 => need bytes.length) (fun _ : Fin sb.ninodes => []) = 0 := total_nil
    have zero : need ([] : List UInt8).length = 0 := by decide
    rw [← contentOf_nil, none, zero, Nat.zero_add, Nat.add_zero] at dots
    rw [dots, nil_append, length_append, length_dirent, length_dirent]
    rfl
  | append_singleton before file ih =>
    rw [length_append, length_singleton] at few
    have earlier := ih (by omega)
    generalize number : (⟨before.length + 2, show before.length + 2 < NINODES by omega⟩ : Fin sb.ninodes) = i
    have next : i.val = before.length + 2 := by rw [← number]
    have apart := ne_root next
    have entered := total_update (fun bytes : List UInt8 => need bytes.length) (contentOf before) root
      (contentOf before root ++ dirent (before.length + 2) (skipUnderscore file.name))
    have copied := total_update (fun bytes : List UInt8 => need bytes.length) (update (contentOf before) root
      (contentOf before root ++ dirent (before.length + 2) (skipUnderscore file.name))) i file.bytes
    rw [← contentOf_append file next, update_of_ne apart, contentOf_next next] at copied
    rw [length_append, length_dirent, length_contentOf_root] at entered
    have zero : need ([] : List UInt8).length = 0 := by decide
    have longer : DIRENT * (before.length + 2) + DIRENT = DIRENT * ((before ++ [file]).length + 2) := by
      rw [length_append, length_singleton, ← Nat.mul_succ]
    rw [longer] at entered
    rw [map_append, sum_append, map_singleton, sum_singleton]
    omega

theorem fits_contentOf (short : ∀ file ∈ files, file.bytes.length ≤ MAXFILE * BSIZE)
    (room : nmeta + (need (DIRENT * (files.length + 2)) + (files.map fun file => need file.bytes.length).sum) ≤ FSSIZE) :
    Fits (contentOf files) := by
  refine ⟨fun i => ?_, by rwa [total_contentOf few]⟩
  by_cases top : i = root
  · have few : files.length + 2 ≤ 200 := few
    have limit : DIRENT * 200 ≤ MAXFILE * BSIZE := by decide
    rw [top, length_contentOf_root]
    exact Nat.le_trans (Nat.mul_le_mul_left _ few) limit
  · rw [contentOf, if_neg top]
    split
    · cases found : files[i.val - 2]? with
      | none => exact Nat.zero_le _
      | some file => exact short file (mem_of_getElem? found)
    · exact Nat.zero_le _

theorem main_accepts (accepted : Accepted files) :
    ∃ image, main files {} = .ok ((), image) ∧ Finished files image := by
  obtain ⟨_, image, result, finished⟩ := (main_ends few).exists_ok fun _ refused => refused accepted
  exact ⟨image, result, finished⟩

end

/-- The last block of the root directory exists unless its entries fill the ones before. -/
theorem Finished.covered_root_iff (finished : Finished files image) (few : files.length + 2 ≤ NINODES) :
    (∀ bn, bn < ((dinode sb image.disk root).size.toNat + BSIZE - 1) / BSIZE →
      bn < MAXFILE ∧ (mount sb image.disk).pointer root (slotAt bn) ≠ 0) ↔ (files.length + 2) % (BSIZE / DIRENT) ≠ 0 := by
  have size := finished.rootSize
  have length := length_contentOf_root files
  have exact (bn : Nat) (bound : bn < MAXFILE) := finished.holds.exact root bn bound
  rw [length] at size
  rw [size]
  have few : files.length + 2 ≤ 200 := few
  have limit : MAXFILE = 156 := rfl
  constructor
  · intro covered
    have last := covered (DIRENT * (files.length + 2) / BSIZE) (by simp only [BSIZE, DIRENT]; omega)
    rw [exact _ last.1, length] at last
    simp only [BSIZE, DIRENT] at last ⊢
    omega
  · intro ragged bn below
    have bound : bn < MAXFILE := by
      simp only [BSIZE, DIRENT] at below
      omega
    refine ⟨bound, ?_⟩
    rw [exact bn bound, length]
    simp only [BSIZE, DIRENT] at ragged below ⊢
    omega

theorem Finished.covered (finished : Finished files image) {i : Fin sb.ninodes} (other : i ≠ root) {bn : Nat}
    (below : bn < ((dinode sb image.disk i).size.toNat + BSIZE - 1) / BSIZE) :
    bn < MAXFILE ∧ (mount sb image.disk).pointer i (slotAt bn) ≠ 0 := by
  have fits := finished.holds.fits i
  rw [finished.sizes i other] at below
  have bound : bn < MAXFILE := by
    simp only [BSIZE] at below fits
    omega
  refine ⟨bound, ?_⟩
  rw [finished.holds.exact i bn bound]
  simp only [BSIZE] at below ⊢
  omega

/-- The image of an accepted list of files is as the kernel needs it exactly if the inodes
of the files have room, and the entries of the root directory do not end at the end of a block. -/
theorem image_well_formed_iff (accepted : main files {} = .ok ((), image)) :
    ForKernel image ↔ files.length + 2 ≤ NINODES ∧ (files.length + 2) % (BSIZE / DIRENT) ≠ 0 := by
  have count := (main_freeinode files).of_ok accepted
  constructor
  · intro wellFormed
    have few : files.length + 2 ≤ NINODES := (wellFormed.numbers (files.length + 1) (by omega) (by omega)).1
    have finished := (main_ends few).of_ok accepted
    exact ⟨few, (finished.covered_root_iff few).mp (wellFormed.covered root)⟩
  · intro ⟨few, room⟩
    have finished := (main_ends few).of_ok accepted
    have placed := finished.holds.tidy.placed
    refine ⟨fun i bn below => ?_, fun inum low high => ?_, placed.exclusive, placed.inside, finished.map⟩
    · by_cases top : i = root
      · subst top
        exact (finished.covered_root_iff few).mpr room bn below
      · exact finished.covered top below
    · have small : inum < sb.ninodes := by
        have : files.length + 2 ≤ sb.ninodes := few
        omega
      exact ⟨small, finished.intact ⟨inum, small⟩ low high⟩

def oneFile : List File := [{ name := [95, 99, 97, 116], chunks := [[1, 2], [3]], noNul := by decide, full := by decide }]

theorem image_well_formed_iff_oneFile : ∃ image, main oneFile {} = .ok ((), image) ∧ ForKernel image := by
  have few : oneFile.length + 2 ≤ NINODES := by decide
  obtain ⟨image, result, _⟩ := main_accepts few ⟨by decide, fits_contentOf few (by decide) (by decide)⟩
  exact ⟨image, result, (image_well_formed_iff result).mpr (by decide)⟩

/-- Empty files named a, b, c and so on, whose entries with "." and ".." fill a block. -/
def thirtyFiles : List File :=
  (List.finRange 30).map fun (k : Fin 30) =>
    { name := [.ofNat (97 + k.val)], chunks := [], noNul := by revert k; decide, full := by simp }

/-- The second block of the root directory is inside its size, but does not exist. -/
theorem root_directory_uncovered : ∃ image, main thirtyFiles {} = .ok ((), image) ∧
    (dinode sb image.disk root).size.toNat = 2 * BSIZE ∧ (mount sb image.disk).pointer root (slotAt 1) = 0 ∧ ¬ ForKernel image := by
  have few : thirtyFiles.length + 2 ≤ NINODES := by decide
  obtain ⟨image, result, finished⟩ := main_accepts few ⟨by decide, fits_contentOf few (by decide) (by decide)⟩
  have size := finished.rootSize
  have hole := finished.holds.exact root 1 (by decide)
  rw [length_contentOf_root] at size hole
  have gap : (mount sb image.disk).pointer root (slotAt 1) = 0 := by
    by_contra present
    exact absurd (hole.mp present) (by decide)
  refine ⟨image, result, size, gap, fun wellFormed => ?_⟩
  have covered := (wellFormed.covered root 1 (by rw [size]; decide)).2
  exact covered gap

end Xv6.Volume.Mkfs
