import Xv6.Fs.Calls
import Mathlib.Data.List.Basic

namespace Xv6.Fs

open List

/-! What dirlookup finds in the entries of a directory, and what dirlink and
sys_unlink do to them. -/

variable {Inum : Type} {content : List (Dirent Inum)} {entry new : Dirent Inum} {name : Name} {i : Inum} {off : Nat}

theorem dirlookup_split (found : dirlookup content name = some (i, off)) :
    ∃ before after, content = before ++ ⟨name, some i⟩ :: after ∧ off = before.length := by
  unfold dirlookup at found
  split at found
  next entry target first =>
    obtain ⟨here, before, after, split, earlier⟩ := List.find?_eq_some_iff_append.mp first
    simp only [Option.some.injEq, Prod.mk.injEq] at found
    have named : entry = name := by simpa using here
    subst named
    refine ⟨before, after, by rw [split, found.1], ?_⟩
    have skipped : before.findIdx (fun e => e.inum.isSome && e.name == entry) = before.length :=
      List.findIdx_eq_length.mpr fun e member => Bool.not_eq_true' _ ▸ earlier e member
    rw [← found.2, split, findIdx_append, skipped, if_neg (Nat.lt_irrefl _), findIdx_cons, here]
    exact Nat.zero_add _
  · contradiction

theorem dirlookup_some (found : dirlookup content name = some (i, off)) :
    ∃ entry ∈ content, entry.inum = some i ∧ entry.name = name := by
  obtain ⟨_, _, split, -⟩ := dirlookup_split found
  exact ⟨⟨name, some i⟩, by rw [split]; simp, rfl, rfl⟩

theorem writeEntry_cases (content : List (Dirent Inum)) (new : Dirent Inum) :
    (∃ before old after, content = before ++ old :: after ∧ old.inum = none ∧ writeEntry content new = before ++ new :: after) ∨
      writeEntry content new = content ++ [new] := by
  unfold writeEntry
  by_cases inside : content.findIdx (fun old => old.inum.isNone) < content.length
  · rw [if_pos inside, set_eq_take_append_cons_drop, if_pos inside]
    refine .inl ⟨_, content.get ⟨_, inside⟩, _, ?_, ?_, rfl⟩
    · have split := take_append_drop (content.findIdx fun old => old.inum.isNone) content
      rw [← getElem_cons_drop inside] at split
      exact split.symm
    · have unused := findIdx_getElem (w := inside)
      simpa using unused
  · rw [if_neg inside]
    exact .inr rfl

theorem mem_writeEntry (member : entry ∈ writeEntry content new) : entry ∈ content ∨ entry = new := by
  rcases writeEntry_cases content new with ⟨before, old, after, split, -, written⟩ | added
  · rw [written] at member
    rw [split]
    simp only [mem_append, mem_cons] at member ⊢
    rcases member with early | same | late
    · exact .inl (.inl early)
    · exact .inr same
    · exact .inl (.inr (.inr late))
  · rw [added] at member
    simpa using member

end Xv6.Fs
