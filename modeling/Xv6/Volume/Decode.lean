import Xv6.Volume.Build

namespace Xv6.Volume.Mkfs

open Data List Nat UInt32

/-! The kernel reads back what mkfs has written. -/

section

/-- strncmp stops at the end of a name, where the field has its first 0. -/
theorem strncmp_iff (n m : Nat) (p q : List UInt8) (ended : 0 ∉ p.take n) (ended' : 0 ∉ q) :
    strncmp n p ((q ++ List.replicate m 0).take n) = true ↔ p.take n = q.take n := by
  induction n generalizing p q with
  | zero => simp [strncmp]
  | succ _ ih =>
    rw [strncmp]
    cases p with
    | nil =>
      cases q with
      | nil => cases m <;> simp [replicate_succ]
      | cons d =>
        have nonzero : d ≠ 0 := fun zero => ended' (by simp [zero])
        simp [nonzero.symm]
    | cons c p =>
      have nonzero : c ≠ 0 := fun zero => ended (by simp [zero])
      cases q with
      | nil => cases m <;> simp [replicate_succ, nonzero]
      | cons d q =>
        have rest := ih p q (fun member => ended (by simp [member])) fun member => ended' (by simp [member])
        by_cases same : c = d
        · simpa [same, nonzero, same ▸ nonzero] using rest
        · simp [same]

theorem take_dirent (inum : Nat) (name : List UInt8) : (dirent inum name).take 2 = word 2 inum := by
  rw [dirent, take_append_of_le_length (by simp), take_of_length_le (by simp)]

theorem drop_dirent (inum : Nat) (name : List UInt8) : (dirent inum name).drop 2 = nameField name := by
  rw [dirent, drop_append_of_le_length (by simp), drop_eq_nil_of_le (by simp), nil_append]

theorem take_drop_flatMap_dirent {entries : List (Nat × List UInt8)} {m : Nat} (inside : m < entries.length) :
    ((entries.flatMap fun e => dirent e.1 e.2).drop (DIRENT * m)).take DIRENT =
      dirent (entries.get ⟨m, inside⟩).1 (entries.get ⟨m, inside⟩).2 := by
  induction entries generalizing m with
  | nil => simp at inside
  | cons e _ ih =>
    have length := length_dirent e.1 e.2
    rw [flatMap_cons]
    cases m with
    | zero =>
      rw [Nat.mul_zero, drop_zero, take_append_of_le_length (by omega), take_of_length_le (by omega)]
      rfl
    | succ m =>
      have further : DIRENT * (m + 1) = (dirent e.1 e.2).length + DIRENT * m := by
        rw [length, mul_succ, Nat.add_comm]
      rw [further, drop_append, drop_eq_nil_of_le (by omega), nil_append, Nat.add_sub_cancel_left]
      exact ih (lt_of_succ_lt_succ inside)

end

/-! ## dirlookup -/

/-- A directory that starts with these entries. -/
structure Lists {sb : Superblock} (v : Mount sb) (dp : Fin sb.ninodes) (entries : List (Nat × List UInt8)) : Prop where
  directory : (v.inode dp).type = T_DIR
  mapped : ∀ x, x < DIRENT * entries.length → v.Mapped dp x
  bytes : slice (v.byte dp) 0 (DIRENT * entries.length) = entries.flatMap fun e => dirent e.1 e.2
  sized : DIRENT * entries.length ≤ (v.inode dp).size.toNat
  numbers : ∀ e ∈ entries, 0 < e.1 ∧ e.1 < 2 ^ 16
  ended : ∀ e ∈ entries, 0 ∉ e.2

section

variable {sb : Superblock} {v : Mount sb} {dp : Fin sb.ninodes} {entries : List (Nat × List UInt8)} {name : List UInt8} {m k : Nat}

section

variable (lists : Lists v dp entries)
include lists

theorem Lists.small (inside : m < entries.length) : DIRENT * m + DIRENT ≤ MAXFILE * BSIZE := by
  have last := (lists.mapped (DIRENT * m + 15) (by simp only [DIRENT]; omega)).1
  simp only [DIRENT] at last ⊢
  omega

theorem Lists.readi_ends (inside : m < entries.length) :
    Ends (readi dp (.ofNat (DIRENT * m)) (.ofNat DIRENT)) v
      (fun reply v' => reply = .data (dirent (entries.get ⟨m, inside⟩).1 (entries.get ⟨m, inside⟩).2) ∧ v' = v) fun _ => False := by
  have small := lists.small inside
  have limit : MAXFILE * BSIZE < 2 ^ 32 := by decide
  have off : (ofNat (DIRENT * m)).toNat = DIRENT * m := by
    rw [toNat_ofNat']
    exact mod_eq_of_lt (by omega)
  have n : (ofNat DIRENT).toNat = DIRENT := rfl
  have further : DIRENT * m + DIRENT ≤ DIRENT * entries.length := by
    rw [← mul_succ]
    exact Nat.mul_le_mul_left _ inside
  have sized := lists.sized
  have whole : min DIRENT ((v.inode dp).size.toNat - DIRENT * m) = DIRENT := by omega
  have regular : (v.inode dp).type ≠ T_DEV := by
    rw [lists.directory]
    decide
  refine (readi_mapped regular (by omega) fun x low high => lists.mapped x (by omega)).returns fun reply v' ⟨data, same⟩ => ⟨?_, same⟩
  have part : ((slice (v.byte dp) 0 (DIRENT * entries.length)).drop (DIRENT * m)).take DIRENT = _ := take_drop_slice
  rw [lists.bytes, take_drop_flatMap_dirent inside, Nat.min_eq_left (show DIRENT ≤ DIRENT * entries.length - DIRENT * m by omega)] at part
  rw [data, off, n, whole, part]

theorem Lists.dirlookupLoop_ends (inside : k < entries.length)
    (named : name.take DIRSIZ = (entries.get ⟨k, inside⟩).2.take DIRSIZ)
    (first : ∀ e ∈ entries.take k, name.take DIRSIZ ≠ e.2.take DIRSIZ) {fuel : Nat} (low : m ≤ k) (enough : k - m < fuel) :
    Ends (dirlookupLoop dp name fuel (DIRENT * m)) v
      (fun found v' => found = some ((entries.get ⟨k, inside⟩).1, DIRENT * k) ∧ v' = v) fun _ => False := by
  have ended : 0 ∉ name.take DIRSIZ := by
    rw [named]
    exact fun member => lists.ended _ (get_mem _ _) (mem_of_mem_take member)
  induction fuel generalizing m with
  | zero => omega
  | succ _ ih =>
    have below : m < entries.length := by omega
    have member := get_mem entries ⟨m, below⟩
    obtain ⟨_, fits⟩ := lists.numbers _ member
    have number : value ((dirent (entries.get ⟨m, below⟩).1 (entries.get ⟨m, below⟩).2).take 2) = (entries.get ⟨m, below⟩).1 := by
      rw [take_dirent, value_word fits]
    have size : DIRENT * m < (v.inode dp).size.toNat := by
      have sized := lists.sized
      have : DIRENT * m < DIRENT * entries.length := Nat.mul_lt_mul_of_pos_left below (by decide)
      omega
    refine .bind (.get ?_)
    rw [if_pos size]
    refine .bind ((lists.readi_ends below).mono (fun reply v' ⟨data, same⟩ => ?_) fun _ => False.elim)
    subst data same
    dsimp only
    rw [if_neg (not_not.mpr (length_dirent ..)), if_neg (by rw [number]; omega), drop_dirent]
    by_cases here : m = k
    · subst here
      rw [namecmp, nameField, if_pos ((strncmp_iff DIRSIZ DIRSIZ name _ ended (lists.ended _ member)).mpr named), number]
      exact .pure ⟨rfl, rfl⟩
    · have earlier : entries.get ⟨m, below⟩ ∈ entries.take k := by
        refine List.mem_take_iff_getElem.mpr ⟨m, by omega, rfl⟩
      rw [namecmp, nameField, if_neg fun same => first _ earlier ((strncmp_iff DIRSIZ DIRSIZ name _ ended (lists.ended _ member)).mp same), ← mul_succ]
      exact ih (by omega) (by omega)

theorem Lists.dirlookup_ends (inside : k < entries.length)
    (named : name.take DIRSIZ = (entries.get ⟨k, inside⟩).2.take DIRSIZ)
    (first : ∀ e ∈ entries.take k, name.take DIRSIZ ≠ e.2.take DIRSIZ) :
    Ends (dirlookup dp name) v (fun found v' => found = some ((entries.get ⟨k, inside⟩).1, DIRENT * k) ∧ v' = v)
      fun _ => False := by
  refine .bind (.get ?_)
  rw [if_pos lists.directory]
  have enough : entries.length ≤ (v.inode dp).size.toNat / DIRENT := by
    rw [Nat.le_div_iff_mul_le (by decide), Nat.mul_comm]
    exact lists.sized
  exact lists.dirlookupLoop_ends inside named first (Nat.zero_le k) (by omega)

end

end

/-! ## The files of the image -/

/-- The name under which the kernel knows the file. -/
def File.entryName (file : File) : List UInt8 := (skipUnderscore file.name).take DIRSIZ

/-- The kernel finds the file in the root directory, and reads its bytes. -/
structure Served (image : Image) (file : File) (i : Fin sb.ninodes) : Prop where
  found : ∀ name, name.take DIRSIZ = file.entryName →
    ∃ off, dirlookup root name (mount sb image.disk) = .ok (some (i.val, off), mount sb image.disk)
  type : (dinode sb image.disk i).type = T_FILE
  nlink : (dinode sb image.disk i).nlink = 1
  size : (dinode sb image.disk i).size.toNat = file.bytes.length
  read : readi i 0 (dinode sb image.disk i).size (mount sb image.disk) = .ok (.data file.bytes, mount sb image.disk)

variable {files : List File} {image : Image} {k : Nat}

theorem length_entries (files : List File) : (entries files).length = files.length + 2 := by simp [entries]

theorem get_entries (inside : k < files.length) :
    (entries files).get ⟨k + 2, by rw [length_entries]; omega⟩ = (k + 2, skipUnderscore (files.get ⟨k, inside⟩).name) := by
  simp [entries]

theorem mem_entries {e : Nat × List UInt8} (member : e ∈ entries files) : e = (ROOTINO, [46]) ∨ e = (ROOTINO, [46, 46]) ∨
      ∃ k, ∃ inside : k < files.length, e = (k + 2, skipUnderscore (files.get ⟨k, inside⟩).name) := by
  rcases List.mem_cons.mp member with dot | later
  · exact .inl dot
  · rcases List.mem_cons.mp later with dots | named
    · exact .inr (.inl dots)
    · obtain ⟨k, inside, equal⟩ := List.mem_mapIdx.mp named
      exact .inr (.inr ⟨k, inside, equal.symm⟩)

theorem skipUnderscore_ended (file : File) : 0 ∉ skipUnderscore file.name := by
  unfold skipUnderscore
  split
  · exact fun member => file.noNul (mem_of_mem_tail member)
  · exact file.noNul

theorem Finished.lists (finished : Finished files image) (few : files.length + 2 ≤ NINODES) :
    Lists (mount sb image.disk) root (entries files) := by
  have length := length_contentOf_root files
  have count := length_entries files
  have content : contentOf files root = (entries files).flatMap fun e => dirent e.1 e.2 := if_pos rfl
  have few : files.length + 2 ≤ 200 := few
  refine ⟨?_, fun x low => ?_, ?_, ?_, fun e member => ?_, fun e member => ?_⟩
  · exact (finished.kinds root (by decide) (by rw [finished.count]; simp [root, ROOTINO])).1
  · exact finished.holds.mapped (by rwa [length, ← count])
  · have bytes := finished.holds.bytes root
    rw [length, content, ← count] at bytes
    exact bytes
  · have size : ((mount sb image.disk).inode root).size.toNat = _ := finished.rootSize
    rw [size, length, count]
    simp only [BSIZE, DIRENT]
    omega
  · rcases mem_entries member with rfl | rfl | ⟨k, inside, rfl⟩
    · decide
    · decide
    · exact ⟨by omega, by omega⟩
  · rcases mem_entries member with rfl | rfl | ⟨k, inside, rfl⟩
    · decide
    · decide
    · exact skipUnderscore_ended _

theorem entries_before (distinct : (files.map File.entryName).Nodup)
    (notDots : ∀ file ∈ files, file.entryName ≠ [46] ∧ file.entryName ≠ [46, 46]) (inside : k < files.length) :
    ∀ e ∈ (entries files).take (k + 2), (files.get ⟨k, inside⟩).entryName ≠ e.2.take DIRSIZ := by
  intro e member same
  obtain ⟨l, _, equal⟩ := List.mem_take_iff_getElem.mp member
  have dots := notDots _ (get_mem files ⟨k, inside⟩)
  subst equal
  match l with
  | 0 => exact dots.1 same
  | 1 => exact dots.2 same
  | l + 2 =>
    have there : l < files.length := by omega
    have named : (files.get ⟨k, inside⟩).entryName = (files.get ⟨l, there⟩).entryName := by
      rw [same]
      exact congrArg (fun e => e.2.take DIRSIZ) (get_entries there)
    have equal := inj_on_of_nodup_map distinct (get_mem ..) (get_mem ..) named
    have indices := congrArg Fin.val (List.nodup_iff_injective_get.mp (List.Nodup.of_map _ distinct) equal)
    simp only at indices
    omega

theorem Finished.served (finished : Finished files image) (few : files.length + 2 ≤ NINODES)
    (distinct : (files.map File.entryName).Nodup) (notDots : ∀ file ∈ files, file.entryName ≠ [46] ∧ file.entryName ≠ [46, 46])
    (inside : k < files.length) (below : k + 2 < sb.ninodes) : Served image (files.get ⟨k, inside⟩) ⟨k + 2, below⟩ := by
  have other : (⟨k + 2, below⟩ : Fin sb.ninodes) ≠ root := fun same => by
    have := congrArg Fin.val same
    simp [root, ROOTINO] at this
  have content : contentOf files ⟨k + 2, below⟩ = (files.get ⟨k, inside⟩).bytes := by
    rw [contentOf, if_neg other]
    simp [inside]
  have kinds := finished.kinds ⟨k + 2, below⟩ (by simp) (by rw [finished.count]; simp [inside])
  rw [if_neg (show k + 2 ≠ ROOTINO by simp [ROOTINO])] at kinds
  have size := finished.sizes ⟨k + 2, below⟩ other
  rw [content] at size
  refine ⟨fun name named => ?_, kinds.1, kinds.2, size, ?_⟩
  · have place : k + 2 < (entries files).length := by
      rw [length_entries]
      omega
    have here := get_entries inside
    have first : ∀ e ∈ (entries files).take (k + 2), name.take DIRSIZ ≠ e.2.take DIRSIZ := by
      rw [named]
      exact entries_before distinct notDots inside
    obtain ⟨_, v, result, equal, rfl⟩ := ((finished.lists few).dirlookup_ends place
      (by rw [here]; exact named) first).exists_ok fun _ => id
    rw [equal, here] at result
    exact ⟨_, result⟩
  · have mapped (x : Nat) (low : x < (files.get ⟨k, inside⟩).bytes.length) : (mount sb image.disk).Mapped ⟨k + 2, below⟩ x :=
      finished.holds.mapped (by rwa [content])
    have bytes := finished.holds.bytes ⟨k + 2, below⟩
    have inode : (mount sb image.disk).inode ⟨k + 2, below⟩ = dinode sb image.disk (k + 2) := rfl
    have regular : ((mount sb image.disk).inode ⟨k + 2, below⟩).type ≠ T_DEV := by
      rw [inode, kinds.1]
      decide
    have start : (0 : UInt32).toNat = 0 := rfl
    have small := (dinode sb image.disk (k + 2)).size.toNat_lt
    have read : Ends (readi ⟨k + 2, below⟩ 0 (dinode sb image.disk (k + 2)).size) (mount sb image.disk) _ _ :=
      readi_mapped regular (by omega) fun x _ high => mapped x (by rw [inode, size] at high; omega)
    obtain ⟨_, v, result, data, rfl⟩ := read.exists_ok fun _ => id
    rw [data, inode, start, Nat.sub_zero, Nat.min_self, size, ← content, bytes] at result
    rw [result, content]

/-- The kernel finds every file that mkfs was given, and reads its bytes back. -/
theorem mkfs_and_kernel_agree (slashes : ∀ file ∈ files, 47 ∉ file.name) (readable : ∀ file ∈ files, file.readable = true)
    (distinct : (files.map File.entryName).Nodup) (notDots : ∀ file ∈ files, file.entryName ≠ [46] ∧ file.entryName ≠ [46, 46])
    (short : ∀ file ∈ files, file.bytes.length ≤ MAXFILE * BSIZE) (few : files.length < NINODES - 1)
    (room : nmeta + (need (DIRENT * (files.length + 2)) + (files.map fun file => need file.bytes.length).sum) ≤ FSSIZE) :
    ∃ image, main files {} = .ok ((), image) ∧
      (entry (image.disk 1) 0 = .ofNat sb.size ∧ entry (image.disk 1) 2 = .ofNat sb.ninodes ∧
        entry (image.disk 1) 5 = .ofNat sb.inodestart ∧ entry (image.disk 1) 6 = .ofNat sb.bmapstart) ∧
      ∀ file ∈ files, ∃ i, Served image file i := by
  have enough : files.length + 2 ≤ NINODES := by omega
  obtain ⟨image, result, finished⟩ := main_accepts enough
    ⟨fun file member => ⟨slashes file member, readable file member⟩, fits_contentOf enough short room⟩
  refine ⟨image, result, ?_, fun file member => ?_⟩
  · rw [finished.super]
    decide +kernel
  · obtain ⟨⟨k, inside⟩, rfl⟩ := get_of_mem member
    have below : k + 2 < sb.ninodes := by
      have : sb.ninodes = NINODES := rfl
      omega
    exact ⟨_, finished.served enough distinct notDots inside below⟩

/-- "_sh" in two reads, and "README" in one. -/
def twoFiles : List File :=
  [{ name := [95, 115, 104], chunks := [[127, 69], [76]], noNul := by decide, full := by decide },
    { name := [82, 69, 65, 68, 77, 69], chunks := [[120, 118, 54]], noNul := by decide, full := by decide }]

theorem mkfs_and_kernel_agree_twoFiles :
    ∃ image, main twoFiles {} = .ok ((), image) ∧ ∀ file ∈ twoFiles, ∃ i, Served image file i := by
  have slashes : ∀ file ∈ twoFiles, 47 ∉ file.name := by decide
  have readable : ∀ file ∈ twoFiles, file.readable = true := by decide
  obtain ⟨image, result, _, served⟩ := mkfs_and_kernel_agree slashes readable (by decide) (by decide) (by decide) (by decide) (by decide)
  exact ⟨image, result, served⟩

end Xv6.Volume.Mkfs
