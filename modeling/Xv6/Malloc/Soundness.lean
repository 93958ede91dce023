import Xv6.Malloc.Allocator

namespace Xv6.Malloc

open Data Function List Option Heap

variable {base : Nat} {program : Program}

/-! Programs that use the heap. -/

/-- The state of the heap from the first call of `malloc` on; `free` lists the free blocks. -/
structure Managed (base : Nat) (program : Program) (free : List Nat) : Prop where
  cycle : Cycle.Chain (fun a b => program.heap.ptr a = b) ((base :: free : List Nat) : Cycle Nat)
  ordered : (base :: free).Pairwise (· < ·)
  roving : program.heap.freep ∈ base :: free
  sized : ∀ b ∈ free ++ program.live, 0 < program.heap.size b
  coalesced : ∀ a ∈ free, ∀ b ∈ free, a + 8 * program.heap.size a ≠ b
  disjoint : (free ++ program.live).Pairwise fun a b =>
    a + 8 * program.heap.size a ≤ b ∨ b + 8 * program.heap.size b ≤ a
  inside : ∀ b ∈ free ++ program.live, ∀ byte, b ≤ byte → byte < b + 8 * program.heap.size b →
    ∃ region ∈ program.heap.regions, region.1 ≤ byte ∧ byte < region.1 + 8 * region.2
  /-- No sum of an address and a size wraps. -/
  bounded : ∀ b ∈ free ++ program.live, b + 8 * program.heap.size b ≤ KERNBASE
  counted : ((free ++ program.live).map program.heap.size).sum = (program.heap.regions.map Prod.snd).sum

/-- Every loop of the next call ends. -/
structure Returns (base : Nat) (program : Program) : Prop where
  malloc : ∀ nbytes, Small nbytes → ∀ answer, ∃ enough, ∀ fuel ≥ enough, (program.heap.malloc base fuel nbytes answer).isSome
  free : ∀ block ∈ program.live, ∃ enough, ∀ fuel ≥ enough, (program.heap.free fuel (block + 8)).isSome

def Served (base : Nat) (before : Program) (event : Event) (after : Program) : Prop :=
  (∀ b ∈ before.live, b ∈ after.live → after.heap.size b = before.heap.size b) ∧
  match event with
  | .malloc fuel nbytes answer =>
    ∃ ap, before.heap.malloc base fuel nbytes answer = some (ap, after.heap) ∧
      (ap = 0 ∧ after.live = before.live ∨
        ∃ b, ap = b + 8 ∧ after.live = b :: before.live ∧ ap + nbytes.toNat ≤ b + 8 * after.heap.size b)
  | .free _ block => after.live = before.live.erase block
  | .store _ _ _ _ => after.live = before.live

def Ready (base : Nat) (program : Program) : Prop :=
  (program.heap.freep = 0 ∧ program.live = [] ∧ program.heap.regions = [] ∧ base + 8 ≤ program.heap.top) ∨
    ∃ nodes, Tiled base program.heap program.live nodes

theorem Tiled.managed {nodes : List Nat} (tiled : Tiled base program.heap program.live nodes) :
    ∃ free, Managed base program free := by
  have listed := tiled.listed
  obtain ⟨free, rfl⟩ : ∃ free, nodes = base :: free := by
    have first := listed.first
    cases nodes with
    | nil => cases first
    | cons _ rest => exact ⟨rest, by rw [some.inj first]⟩
  have sorted := listed.sorted
  have apart : (free ++ program.live).Pairwise fun a b =>
      (program.heap.units a).Disjoint (program.heap.units b) := tiled.disjoint.of_cons
  have sized (b : Nat) (member : b ∈ free ++ program.live) : 0 < program.heap.size b := by
    rcases List.mem_append.mp member with listedBlock | used
    · exact listed.sized b (mem_cons_of_mem base listedBlock) (rel_of_pairwise_cons sorted listedBlock).ne'
    · exact tiled.held b used
  have obtained (b : Nat) (member : b ∈ free ++ program.live) (unit : Nat)
      (inside : unit ∈ program.heap.units b) : unit ∈ program.heap.obtained :=
    tiled.mem_obtained (mem_cons_of_mem base member) inside
  have aligned (b : Nat) (member : b ∈ free ++ program.live) : b % 8 = 0 :=
    (tiled.placed b (obtained b member b (header_mem (sized b member)))).1
  refine ⟨free, ?_⟩
  exact {
    cycle := (Cycle.chain_coe_cons _ base free).mpr listed.closed
    ordered := sorted
    roving := listed.roving
    sized := sized
    coalesced := fun a first b second touching => by
      have positive := sized a (mem_append_left _ first)
      have below := listed.below_of_lt (mem_cons_of_mem base first) (mem_cons_of_mem base second) (by omega)
      rw [Heap.Below] at below
      omega
    disjoint := apart.imp_of_mem fun first second disjoint =>
      apart_of_disjoint disjoint ((aligned _ first).trans (aligned _ second).symm)
        (sized _ first) (sized _ second)
    inside := fun b member byte low high => by
      -- the unit the byte lies in is one of the units obtained
      have unit : b + 8 * ((byte - b) / 8) ∈ program.heap.units b := mem_units.mpr ⟨(byte - b) / 8, by omega, rfl⟩
      obtain ⟨region, known, within⟩ := List.mem_flatMap.mp (obtained b member _ unit)
      obtain ⟨i, _, _⟩ := List.mem_range'.mp within
      exact ⟨region, known, by omega, by omega⟩
    bounded := fun b member => by
      have positive := sized b member
      have last : b + 8 * (program.heap.size b - 1) ∈ program.heap.units b :=
        mem_units.mpr ⟨program.heap.size b - 1, by omega, rfl⟩
      have placed := tiled.placed _ (obtained b member _ last)
      omega
    counted := by
      have length := tiled.tiled.length_eq
      rw [cons_append, flatMap_cons, length_append, length_flatMap, Heap.obtained, length_flatMap] at length
      simpa [Heap.units, listed.header, Function.comp_def] using length }

theorem nunits_pos (nbytes : UInt32) : 0 < (Heap.nunits nbytes).toNat := by
  have bound := (nbytes + 8 - 1).toNat_lt
  rw [nunits, UInt32.toNat_add, UInt32.toNat_div]
  simp only [UInt32.reduceToNat]
  omega

theorem nunits_room {nbytes : UInt32} (small : Small nbytes) : nbytes.toNat + 8 ≤ 8 * (Heap.nunits nbytes).toNat := by
  rw [Small] at small
  simp only [nunits, UInt32.toNat_add, UInt32.toNat_div, UInt32.toNat_sub, UInt32.reduceToNat]
  omega

theorem Tiled.of_perm {h : Heap} {live live' nodes : List Nat} (tiled : Tiled base h live nodes)
    (same : live'.Perm live) : Tiled base h live' nodes :=
  tiled.replace tiled.listed ((same.append_left nodes).flatMap_right _) rfl rfl
    fun b used => tiled.held b (same.mem_iff.mp used)

section

variable (ready : Ready base program)
include ready

theorem Ready.init (known : 0 < base) :
    (∃ nodes, Tiled base (program.heap.init base) program.live nodes) ∧
      ∀ b ∈ program.live, (program.heap.init base).size b = program.heap.size b := by
  rcases ready with ⟨null, unused, empty, low⟩ | ⟨nodes, tiled⟩
  · rw [unused]
    refine ⟨⟨[base], ?_⟩, by simp⟩
    rw [Heap.init, if_pos null]
    exact {
      listed := {
        first := rfl
        closed := List.isChain_pair.mpr (update_self _ _ _)
        apart := .singleton base
        header := update_self _ _ _
        sized := fun b member other => absurd (List.mem_singleton.mp member) other
        roving := List.mem_singleton.mpr rfl }
      tiled := by simp [Heap.units, Heap.obtained, empty]
      distinct := by simp [Heap.obtained, empty]
      placed := by simp [Heap.obtained, empty]
      held := by simp
      low := low }
  · have low := tiled.listed.base_le _ tiled.listed.roving
    have same : program.heap.init base = program.heap := by rw [Heap.init, if_neg (by omega)]
    rw [same]
    exact ⟨⟨nodes, tiled⟩, fun _ _ => rfl⟩

theorem Ready.malloc_spec (known : 0 < base) (nbytes : UInt32) (answer : Nat → Option Nat) :
    ∃ enough result, Answered base program.heap program.live (Heap.nunits nbytes).toNat result ∧
      program.heap.malloc base enough nbytes answer = some result := by
  obtain ⟨⟨_, tiled⟩, kept⟩ := ready.init known
  obtain ⟨enough, result, answered, searched⟩ := tiled.search_spec known (nunits_pos nbytes) answer
  refine ⟨enough, result, ?_, searched⟩
  cases answered with
  | refused after nodes' tiled' same =>
    exact .refused after nodes' tiled' fun b used => (same b used).trans (kept b used)
  | served after nodes' block tiled' same exactly =>
    exact .served after nodes' block tiled' (fun b used => (same b used).trans (kept b used)) exactly

theorem Ready.tiled {block : Nat} (used : block ∈ program.live) :
    ∃ nodes, Tiled base program.heap program.live nodes := by
  rcases ready with ⟨-, unused, -⟩ | tiled
  · rw [unused] at used
    cases used
  · exact tiled

theorem Ready.returns (known : 0 < base) : Returns base program where
  malloc nbytes _ answer := by
    obtain ⟨enough, _, -, returned⟩ := ready.malloc_spec known nbytes answer
    exact ⟨enough, fun fuel room => isSome_of_eq_some (search_mono returned room)⟩
  free block used := by
    obtain ⟨nodes, tiled⟩ := ready.tiled used
    obtain ⟨h', -, -, -, -, ends⟩ := (tiled.of_perm (perm_cons_erase used).symm).free_spec
    exact ⟨nodes.length, fun fuel room => isSome_of_eq_some (ends fuel room)⟩

end

section

variable {after : Program}

theorem Ready.malloc {fuel : Nat} {nbytes : UInt32} {answer : Nat → Option Nat} (ready : Ready base program) (known : 0 < base)
    (stepped : step base program (.malloc fuel nbytes answer) = some after) : (∃ nodes, Tiled base after.heap after.live nodes) ∧
      Served base program (.malloc fuel nbytes answer) after := by
  rw [Malloc.step] at stepped
  split at stepped
  case isFalse => cases stepped
  rename_i small
  obtain ⟨enough, result, answered, returns⟩ := ready.malloc_spec known nbytes answer
  cases called : program.heap.malloc base fuel nbytes answer with
  | none => simp [called] at stepped
  | some other =>
    -- the answer with this much fuel is the answer with enough of it
    obtain rfl : other = result := by
      have first := search_mono called (Nat.le_max_left fuel enough)
      have second := search_mono returns (Nat.le_max_right fuel enough)
      exact some.inj (first.symm.trans second)
    simp only [called] at stepped
    cases answered with
    | refused _ nodes tiled kept =>
      cases stepped
      exact ⟨⟨nodes, tiled⟩, fun b used _ => kept b used, 0, called, .inl ⟨rfl, rfl⟩⟩
    | served _ nodes block tiled kept =>
      cases stepped
      refine ⟨⟨nodes, tiled⟩, fun b used _ => kept b used, block + 8, called, .inr ⟨block, rfl, rfl, ?_⟩⟩
      have room := nunits_room small
      dsimp only
      omega

theorem Ready.free {fuel block : Nat} (ready : Ready base program) (stepped : step base program (.free fuel block) = some after) :
    (∃ nodes, Tiled base after.heap after.live nodes) ∧ Served base program (.free fuel block) after := by
  rw [Malloc.step] at stepped
  split at stepped
  case isFalse => cases stepped
  rename_i used
  obtain ⟨nodes, tiled⟩ := ready.tiled used
  obtain ⟨h', nodes', tiled', kept, -, ends⟩ := (tiled.of_perm (perm_cons_erase used).symm).free_spec
  cases called : program.heap.free fuel (block + 8) with
  | none => simp [called] at stepped
  | some heap =>
    obtain rfl : heap = h' := by
      have first := free_mono called (Nat.le_max_left fuel nodes.length)
      exact some.inj (first.symm.trans (ends _ (Nat.le_max_right fuel nodes.length)))
    simp only [called] at stepped
    cases stepped
    exact ⟨⟨nodes', tiled'⟩, fun b _ remains => kept b remains, rfl⟩

theorem Ready.store {block unit ptr size : Nat} (ready : Ready base program)
    (stepped : step base program (.store block unit ptr size) = some after) : (∃ nodes, Tiled base after.heap after.live nodes) ∧
      Served base program (.store block unit ptr size) after := by
  rw [Malloc.step] at stepped
  split at stepped
  case isFalse => cases stepped
  rename_i allowed
  obtain ⟨used, _, within⟩ := allowed
  cases stepped
  obtain ⟨nodes, tiled⟩ := ready.tiled used
  have other (b : Nat) (member : b ∈ nodes ++ program.live) : b ≠ block + 8 * unit := by
    rintro rfl
    have header := tiled.header_unique (mem_append_right _ used) member (mem_units.mpr ⟨unit, within, rfl⟩)
    omega
  have touches : Touches program.heap { program.heap with
      ptr := update program.heap.ptr (block + 8 * unit) ptr
      size := update program.heap.size (block + 8 * unit) size } (block + 8 * unit) :=
    ⟨fun a other => update_of_ne other _ _, fun a other => update_of_ne other _ _, rfl, rfl⟩
  have listed := tiled.listed.touch touches (fun member => other _ (mem_append_left _ member) rfl) rfl
  refine ⟨⟨nodes, tiled.replace listed ?_ rfl rfl fun b live => ?_⟩, fun b live _ => ?_, rfl⟩
  · rw [flatMap_units_congr fun b member => touches.size b (other b member)]
  · rw [touches.size b (other b (mem_append_right _ live))]
    exact tiled.held b live
  · exact touches.size b (other b (mem_append_right _ live))

end

/-- However a program uses the heap, and whatever `sbrk` answers: every call returns, the
list keeps its shape, and a block the program gets is its own until it frees it. -/
theorem user_heap_sound (ptr size : Nat → Nat) (base : Nat) (known : 0 < base) (events : List Event) :
    Returns base (Program.start ptr size base) ∧ EveryStep (step base) (fun before event after =>
        (∃ free, Managed base after free) ∧ Returns base after ∧ Served base before event after)
        (Program.start ptr size base) events := by
  have start : Ready base (Program.start ptr size base) := .inl ⟨rfl, rfl, rfl, le_rfl⟩
  refine ⟨start.returns known, ?_⟩
  refine (runs_along (Ready base) start (everyStep_true _ _ events) fun before event after ready _ stepped => ?_).1
  obtain ⟨⟨nodes, tiled⟩, served⟩ : (∃ nodes, Tiled base after.heap after.live nodes) ∧ Served base before event after := by
    cases event with
    | malloc => exact ready.malloc known stepped
    | free => exact ready.free stepped
    | store => exact ready.store stepped
  have next : Ready base after := .inr ⟨nodes, tiled⟩
  exact ⟨next, tiled.managed, next.returns known, served⟩

/-- Three requests, the first block freed first, then the last, then the one between them. -/
def threeBlocks : List Event :=
  [.malloc 4 100 fun _ => some 0, .malloc 4 20 fun _ => none, .malloc 4 0 fun _ => none,
    .free 4 32672, .free 4 32632, .store 32640 1 7 9, .free 4 32640]

theorem user_heap_sound_threeBlocks : (run (step 8) (Program.start (fun _ => 0) (fun _ => 0) 8) threeBlocks).isSome ∧
      Returns 8 (Program.start (fun _ => 0) (fun _ => 0) 8) ∧ EveryStep (step 8) (fun before event after =>
        (∃ free, Managed 8 after free) ∧ Returns 8 after ∧ Served 8 before event after)
        (Program.start (fun _ => 0) (fun _ => 0) 8) threeBlocks :=
  ⟨by decide, user_heap_sound (fun _ => 0) (fun _ => 0) 8 (by decide) threeBlocks⟩

end Xv6.Malloc
