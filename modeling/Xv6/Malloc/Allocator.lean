import Xv6.Malloc.FreeList

namespace Xv6.Malloc

open Data Function List Heap

variable {base : Nat} {h h' : Heap} {nodes nodes' live : List Nat} {answer : Nat → Option Nat} {result : Nat × Heap}

/-! More fuel never changes an answer. -/

theorem Heap.place_mono {bp p fuel result more : Nat} (found : h.place bp fuel p = some result) (room : fuel ≤ more) :
    h.place bp more p = some result := by
  induction fuel generalizing p more with
  | zero => cases found
  | succ _ ih =>
    obtain ⟨_, rfl⟩ := Nat.exists_eq_add_of_le' room
    rw [← Nat.add_assoc, place]
    rw [place] at found
    split at found
    · rwa [if_pos ‹_›]
    · rw [if_neg ‹_›]
      split at found
      · rwa [if_pos ‹_›]
      · rw [if_neg ‹_›]
        exact ih found (by omega)

theorem Heap.free_mono {ap fuel more : Nat} (freed : h.free fuel ap = some h') (room : fuel ≤ more) : h.free more ap = some h' := by
  rw [Heap.free] at freed ⊢
  cases found : h.place (ap - 8) fuel h.freep with
  | none => simp [found] at freed
  | some =>
    rw [place_mono found room]
    simpa only [found] using freed

theorem Heap.morecore_mono {fuel nu more : Nat} (grown : h.morecore fuel nu answer = some result) (room : fuel ≤ more) :
    h.morecore more nu answer = some result := by
  simp only [Heap.morecore] at grown ⊢
  split at grown
  · assumption
  · split at grown
    · cases grown
    · rename_i freed
      simp only [free_mono freed room]
      exact grown

theorem Heap.search_mono {nunits fuel prevp p more : Nat}
    (found : Heap.search nunits answer fuel h prevp p = some result) (room : fuel ≤ more) :
    Heap.search nunits answer more h prevp p = some result := by
  induction fuel generalizing h prevp p more with
  | zero => cases found
  | succ fuel ih =>
    obtain ⟨more, rfl⟩ := Nat.exists_eq_add_of_le' room
    rw [← Nat.add_assoc, search]
    rw [search] at found
    split at found
    · rwa [if_pos ‹_›]
    · rw [if_neg ‹_›]
      split at found
      · rw [if_pos ‹_›]
        split at found
        · cases found
        · rename_i grown
          simp only [morecore_mono grown (show fuel ≤ more + fuel by omega)]
          split at found
          · rwa [if_pos ‹_›]
          · rw [if_neg ‹_›]
            exact ih found (by omega)
      · rw [if_neg ‹_›]
        exact ih found (by omega)

/-! The whole heap: the units obtained from `sbrk` are those of the free list and
of the blocks in use, each of them once. -/

structure Tiled (base : Nat) (h : Heap) (live nodes : List Nat) : Prop where
  listed : Listed base h nodes
  tiled : ((nodes ++ live).flatMap h.units).Perm h.obtained
  distinct : h.obtained.Nodup
  placed : ∀ unit ∈ h.obtained, unit % 8 = 0 ∧ base < unit ∧ unit + 8 ≤ h.top ∧ unit + 8 ≤ KERNBASE
  held : ∀ b ∈ live, 0 < h.size b
  low : base + 8 ≤ h.top

theorem Heap.mem_units {block unit : Nat} : unit ∈ h.units block ↔ ∃ i < h.size block, unit = block + 8 * i := by
  rw [Heap.units, mem_range']

theorem Heap.header_mem {block : Nat} (sized : 0 < h.size block) : block ∈ h.units block := mem_units.mpr ⟨0, sized, rfl⟩

theorem Heap.apart_of_disjoint {a b : Nat} (disjoint : (h.units a).Disjoint (h.units b))
    (aligned : a % 8 = b % 8) (first : 0 < h.size a) (second : 0 < h.size b) : a + 8 * h.size a ≤ b ∨ b + 8 * h.size b ≤ a := by
  by_contra overlap
  rcases Nat.le_total a b with before | before
  · have inside : b ∈ h.units a := mem_units.mpr ⟨(b - a) / 8, by omega, by omega⟩
    exact disjoint inside (header_mem second)
  · have inside : a ∈ h.units b := mem_units.mpr ⟨(a - b) / 8, by omega, by omega⟩
    exact disjoint (header_mem first) inside

theorem Heap.sbrk_inv {nu hp : Nat} {answer : Option Nat} (grown : h.sbrk nu answer = some (hp, h')) :
    h.top ≤ hp ∧ hp % 8 = 0 ∧ hp + 8 * nu ≤ KERNBASE ∧ h' = { h with top := hp + 8 * nu, regions := (hp, nu) :: h.regions } := by
  cases answer with
  | none => cases grown
  | some =>
    simp only [Heap.sbrk] at grown
    split at grown
    · obtain ⟨rfl, rfl⟩ := Prod.mk.inj (Option.some.inj grown)
      exact ⟨by omega, by omega, by omega, rfl⟩
    · cases grown

namespace Tiled

section

variable (tiled : Tiled base h live nodes)
include tiled

theorem mem_obtained {block unit : Nat} (member : block ∈ nodes ++ live) (inside : unit ∈ h.units block) : unit ∈ h.obtained :=
  tiled.tiled.mem_iff.mp (mem_flatMap_of_mem member inside)

theorem sized {block : Nat} (member : block ∈ nodes ++ live) :
    block = base ∨ 0 < h.size block := by
  rcases List.mem_append.mp member with free | used
  · exact (eq_or_ne block base).imp id (tiled.listed.sized block free)
  · exact .inr (tiled.held block used)

theorem disjoint : (nodes ++ live).Pairwise fun a b => (h.units a).Disjoint (h.units b) :=
  (List.nodup_flatMap.mp (tiled.tiled.nodup_iff.mpr tiled.distinct)).2

theorem block_unique {a b unit : Nat} (first : a ∈ nodes ++ live)
    (second : b ∈ nodes ++ live) (inside : unit ∈ h.units a) (inside' : unit ∈ h.units b) : a = b := by
  rcases eq_or_related tiled.disjoint first second with same | apart | apart
  · exact same
  · exact absurd inside' (apart inside)
  · exact absurd inside (apart inside')

theorem header_unique {a b : Nat} (first : a ∈ nodes ++ live) (second : b ∈ nodes ++ live) (inside : b ∈ h.units a) : b = a := by
  rcases tiled.sized second with rfl | positive
  · exact absurd (tiled.placed b (tiled.mem_obtained first inside)).2.1 (lt_irrefl b)
  · exact tiled.block_unique second first (header_mem positive) inside

theorem live_nodup : live.Nodup := by
  have apart := (List.pairwise_append.mp tiled.disjoint).2.1
  refine apart.imp_of_mem fun {a b} member _ disjoint same => ?_
  have header := header_mem (tiled.held a member)
  exact disjoint header (same ▸ header)

theorem not_listed {block : Nat} (used : block ∈ live) : block ∉ nodes := fun free => by
  have header := header_mem (tiled.held block used)
  exact (List.pairwise_append.mp tiled.disjoint).2.2 block free block used header header

end

theorem outside {bp : Nat} (tiled : Tiled base h (bp :: live) nodes) : Outside base h nodes bp := by
  have used : bp ∈ bp :: live := mem_cons_self
  have sized := tiled.held bp used
  have placed := tiled.placed bp (tiled.mem_obtained (mem_append_right _ used) (header_mem sized))
  refine ⟨placed.2.1, sized, fun b free => ?_⟩
  rcases tiled.sized (mem_append_left _ free) with rfl | positive
  · left
    rw [tiled.listed.header]
    omega
  · have aligned := tiled.placed b
      (tiled.mem_obtained (mem_append_left _ free) (header_mem positive))
    have disjoint := (List.pairwise_append.mp tiled.disjoint).2.2 b free bp used
    exact apart_of_disjoint disjoint (by omega) positive sized

theorem replace {live' : List Nat} (tiled : Tiled base h live nodes) (listed : Listed base h' nodes')
    (units : ((nodes' ++ live').flatMap h'.units).Perm ((nodes ++ live).flatMap h.units))
    (top : h'.top = h.top) (regions : h'.regions = h.regions) (held : ∀ b ∈ live', 0 < h'.size b) :
    Tiled base h' live' nodes' := by
  have obtained : h'.obtained = h.obtained := by rw [Heap.obtained, regions, Heap.obtained]
  refine ⟨listed, ?_, obtained ▸ tiled.distinct, ?_, held, top ▸ tiled.low⟩
  · rw [obtained]
    exact units.trans tiled.tiled
  · rw [obtained, top]
    exact tiled.placed

theorem free_spec {bp : Nat} (tiled : Tiled base h (bp :: live) nodes) :
    ∃ h' nodes', Tiled base h' live nodes' ∧ (∀ b ∈ live, h'.size b = h.size b) ∧
      (h.size bp ≤ h'.size h'.freep ∨ h.size bp ≤ h'.size (h'.ptr h'.freep)) ∧
      ∀ fuel, nodes.length ≤ fuel → h.free fuel (bp + 8) = some h' := by
  obtain ⟨h', nodes', freed, ends⟩ := tiled.listed.free_spec tiled.outside
  have kept (b : Nat) (used : b ∈ live) : h'.size b = h.size b := by
    refine freed.size b (fun same => ?_) (tiled.not_listed (mem_cons_of_mem bp used))
    exact (List.nodup_cons.mp tiled.live_nodup).1 (same ▸ used)
  refine ⟨h', nodes', ?_, kept, freed.found, ends⟩
  refine tiled.replace freed.listed ?_ freed.top freed.regions fun b used => ?_
  · have moved := freed.units.append_right (live.flatMap h.units)
    rw [flatMap_append, flatMap_units_congr kept]
    refine moved.trans ?_
    rw [flatMap_append, flatMap_cons, append_assoc]
    exact perm_append_comm_assoc _ _ _
  · rw [kept b used]
    exact tiled.held b (mem_cons_of_mem bp used)

section

variable (tiled : Tiled base h live nodes)
include tiled

theorem carve_spec {nunits prevp p : Nat} (positive : 0 < nunits)
    (member : prevp ∈ nodes) (linked : h.ptr prevp = p) (fits : nunits ≤ h.size p) :
    ∃ block nodes', (h.carve nunits prevp p).1 = block + 8 ∧ Tiled base (h.carve nunits prevp p).2 (block :: live) nodes' ∧
      (∀ b ∈ live, (h.carve nunits prevp p).2.size b = h.size b) ∧ (h.carve nunits prevp p).2.size block = nunits := by
  obtain ⟨nodes', block, carved, address⟩ : ∃ nodes' block,
      Carved base h (h.carve nunits prevp p).2 nunits p block nodes nodes' ∧
        (h.carve nunits prevp p).1 = block + 8 := by
    rcases fits.eq_or_lt with whole | tail
    · obtain ⟨nodes', carved⟩ := tiled.listed.carve_whole positive member linked whole.symm
      exact ⟨nodes', p, carved⟩
    · exact tiled.listed.carve_tail positive member linked tail
  have here : p ∈ nodes := linked ▸ tiled.listed.ptr_mem member
  have kept (b : Nat) (used : b ∈ live) : (h.carve nunits prevp p).2.size b = h.size b := by
    have unlisted := tiled.not_listed used
    refine carved.size b (fun same => unlisted ?_) unlisted
    have inside : b ∈ h.units p := same ▸ carved.inside
    rw [tiled.header_unique (mem_append_left _ here) (mem_append_right _ used) inside]
    exact here
  refine ⟨block, nodes', address, ?_, kept, carved.exactly⟩
  refine tiled.replace carved.listed ?_ carved.top carved.regions fun b used => ?_
  · have moved := carved.units.append_right (live.flatMap h.units)
    rw [flatMap_append, flatMap_cons, flatMap_units_congr kept, flatMap_append]
    refine List.Perm.trans ?_ moved
    rw [append_assoc]
    exact perm_append_comm_assoc _ _ _
  · rcases List.mem_cons.mp used with rfl | used
    · rw [carved.exactly]
      exact positive
    · rw [kept b used]
      exact tiled.held b used

theorem grow {start nu : Nat} (positive : 0 < nu) (above : h.top ≤ start) (aligned : start % 8 = 0)
    (room : start + 8 * nu ≤ KERNBASE) (ptr : h'.ptr = h.ptr) (size : h'.size = update h.size start nu)
    (freep : h'.freep = h.freep) (top : h'.top = start + 8 * nu) (regions : h'.regions = (start, nu) :: h.regions) :
    Tiled base h' (start :: live) nodes ∧ ∀ b ∈ live, h'.size b = h.size b := by
  have low := tiled.low
  have below (b : Nat) (member : b ∈ nodes ++ live) : b ≠ start := by
    rcases tiled.sized member with rfl | sized
    · omega
    · have placed := tiled.placed b (tiled.mem_obtained member (header_mem sized))
      omega
  have here : h'.size start = nu := by rw [size, update_self]
  have kept (b : Nat) (member : b ∈ nodes ++ live) : h'.size b = h.size b := by
    rw [size, update_of_ne (below b member)]
  have touches : Touches h { h' with top := h.top, regions := h.regions } start :=
    ⟨fun a _ => congrFun ptr a, fun a other => size ▸ update_of_ne other _ _, rfl, rfl⟩
  have unlisted : start ∉ nodes := fun member => below start (mem_append_left _ member) rfl
  have listed := tiled.listed.touch touches unlisted freep
  have fresh (unit : Nat) (member : unit ∈ range' start nu 8) :
      unit % 8 = 0 ∧ start ≤ unit ∧ unit + 8 ≤ start + 8 * nu := by
    obtain ⟨i, _, rfl⟩ := List.mem_range'.mp member
    omega
  have obtained : h'.obtained = range' start nu 8 ++ h.obtained := by
    rw [Heap.obtained, regions, flatMap_cons, Heap.obtained]
  refine ⟨?_, fun b used => kept b (mem_append_right _ used)⟩
  exact {
    listed := ⟨listed.first, listed.closed, listed.apart, listed.header, listed.sized, listed.roving⟩
    tiled := by
      refine (List.perm_middle.flatMap_right _).trans ?_
      rw [flatMap_cons, flatMap_units_congr kept, Heap.units, here, obtained]
      exact tiled.tiled.append_left _
    distinct := by
      rw [obtained]
      refine List.nodup_append'.mpr ⟨nodup_range' 8, tiled.distinct, fun unit new old => ?_⟩
      have after := fresh unit new
      have before := tiled.placed unit old
      omega
    placed := fun unit member => by
      rw [obtained] at member
      rcases List.mem_append.mp member with new | old
      · have after := fresh unit new
        omega
      · have before := tiled.placed unit old
        omega
    held := fun b used => by
      rcases List.mem_cons.mp used with rfl | used
      · rw [here]
        exact positive
      · rw [kept b (mem_append_right _ used)]
        exact tiled.held b used
    low := by omega }

/-- `morecore` fails without a trace, or leaves a block of the size asked for at `freep` or
right after it. -/
theorem morecore_spec {nunits : Nat} (answer : Nat → Option Nat) : (∀ fuel, h.morecore fuel nunits answer = some (0, h)) ∨
    ∃ h' nodes', Tiled base h' live nodes' ∧ (∀ b ∈ live, h'.size b = h.size b) ∧
      (nunits ≤ h'.size h'.freep ∨ nunits ≤ h'.size (h'.ptr h'.freep)) ∧
      ∀ fuel, nodes.length ≤ fuel → h.morecore fuel nunits answer = some (h'.freep, h') := by
  simp only [Heap.morecore]
  generalize unitsIs : (if nunits < 4096 then 4096 else nunits) = nu
  have enough : nunits ≤ nu := by split at unitsIs <;> omega
  cases grown : h.sbrk nu (answer h.top) with
  | none => exact .inl fun _ => rfl
  | some region =>
    right
    obtain ⟨hp, _⟩ := region
    obtain ⟨above, aligned, room, rfl⟩ := sbrk_inv grown
    have positive : 0 < nu := by split at unitsIs <;> omega
    generalize heapIs : ({ h with
      top := hp + 8 * nu
      regions := (hp, nu) :: h.regions
      size := update h.size hp nu } : Heap) = larger
    obtain ⟨tiledLarger, before⟩ : Tiled base larger (hp :: live) nodes ∧ ∀ b ∈ live, larger.size b = h.size b := by
      subst heapIs
      exact tiled.grow positive above aligned room rfl rfl rfl rfl rfl
    have size : larger.size hp = nu := by
      subst heapIs
      exact update_self _ _ _
    obtain ⟨h', nodes', tiled', kept, found, ends⟩ := tiledLarger.free_spec
    refine ⟨h', nodes', tiled', fun b used => (kept b used).trans (before b used), ?_, fun fuel room => ?_⟩
    · rw [size] at found
      exact found.imp enough.trans enough.trans
    · rw [← heapIs] at ends
      simp only [ends fuel room]

end

end Tiled

/-! The loop of `malloc`. -/

theorem Heap.search_walk (fuel : Nat) {nunits prevp : Nat} {path : List Nat}
    (chain : (prevp :: (path ++ [h.freep])).IsChain h.Links) (before : h.freep ∉ path) :
    (∃ prev p, prev ∈ prevp :: path ∧ h.ptr prev = p ∧ nunits ≤ h.size p ∧
      Heap.search nunits answer (path.length + 1 + fuel) h prevp (h.ptr prevp) = some (h.carve nunits prev p)) ∨
    (∀ p ∈ path ++ [h.freep], h.size p < nunits) ∧ Heap.search nunits answer (path.length + 1 + fuel) h prevp (h.ptr prevp) =
        match h.morecore fuel nunits answer with
        | none => none
        | some (p, h) =>
          if p = 0 then some (0, h) else Heap.search nunits answer fuel h p (h.ptr p) := by
  induction path generalizing prevp with
  | nil =>
    have linked : h.Links prevp h.freep := List.isChain_pair.mp chain
    rw [Heap.Links] at linked
    by_cases fits : nunits ≤ h.size h.freep
    · left
      refine ⟨prevp, h.freep, mem_cons_self, linked, fits, ?_⟩
      rw [length_nil, Nat.zero_add, Nat.add_comm, search, linked, if_pos fits]
    · right
      refine ⟨fun p member => ?_, ?_⟩
      · rw [List.mem_singleton.mp member]
        omega
      · rw [length_nil, Nat.zero_add, Nat.add_comm, search, linked, if_neg fits]
        exact if_pos rfl
  | cons p path ih =>
    obtain ⟨linked, rest⟩ := List.isChain_cons_cons.mp chain
    rw [Heap.Links] at linked
    have other : p ≠ h.freep := fun same => before (same ▸ mem_cons_self)
    have count : (p :: path).length + 1 + fuel = path.length + 1 + fuel + 1 := by
      rw [length_cons]
      omega
    by_cases fits : nunits ≤ h.size p
    · left
      refine ⟨prevp, p, mem_cons_self, linked, fits, ?_⟩
      rw [count, search, linked, if_pos fits]
    · have goes : search nunits answer ((p :: path).length + 1 + fuel) h prevp (h.ptr prevp) =
          search nunits answer (path.length + 1 + fuel) h p (h.ptr p) := by
        rw [count, search, linked, if_neg fits, if_neg other]
      rw [goes]
      rcases ih rest fun member => before (mem_cons_of_mem p member) with
        ⟨prev, p', member, found⟩ | ⟨small, grows⟩
      · exact .inl ⟨prev, p', mem_cons_of_mem prevp member, found⟩
      · refine .inr ⟨fun z member => ?_, grows⟩
        rcases List.mem_cons.mp member with rfl | later
        · omega
        · exact small z later

namespace Tiled

theorem exists_round (tiled : Tiled base h live nodes) :
    ∃ others, h.freep ∉ others ∧ (h.freep :: (others ++ [h.freep])).IsChain h.Links ∧
      (∀ z ∈ h.freep :: others, z ∈ nodes) ∧ h.ptr h.freep ∈ others ++ [h.freep] := by
  have listed := tiled.listed
  obtain ⟨others, same, chain⟩ := exists_walk listed.closed listed.first listed.roving
  have nodup : (h.freep :: others).Nodup := same.nodup_iff.mpr (listed.sorted.imp Nat.ne_of_lt)
  refine ⟨others, (List.nodup_cons.mp nodup).1, chain, fun z => same.mem_iff.mp, ?_⟩
  cases others with
  | nil =>
    have linked : h.Links h.freep h.freep := List.isChain_pair.mp chain
    exact List.mem_singleton.mpr linked
  | cons next =>
    have linked : h.Links h.freep next := (List.isChain_cons_cons.mp chain).1
    rw [Heap.Links] at linked
    exact linked ▸ mem_cons_self

end Tiled

/-- What `malloc` leaves, with the address it returns. -/
inductive Answered (base : Nat) (h : Heap) (live : List Nat) (nunits : Nat) : Nat × Heap → Prop
  | refused (after : Heap) (nodes : List Nat) (tiled : Tiled base after live nodes)
      (kept : ∀ b ∈ live, after.size b = h.size b) : Answered base h live nunits (0, after)
  | served (after : Heap) (nodes : List Nat) (block : Nat) (tiled : Tiled base after (block :: live) nodes)
      (kept : ∀ b ∈ live, after.size b = h.size b) (exactly : after.size block = nunits) :
      Answered base h live nunits (block + 8, after)

theorem Tiled.answered_carve {before : Heap} {nunits prevp p : Nat} (tiled : Tiled base h live nodes)
    (kept : ∀ b ∈ live, h.size b = before.size b) (positive : 0 < nunits) (member : prevp ∈ nodes)
    (linked : h.ptr prevp = p) (fits : nunits ≤ h.size p) : Answered base before live nunits (h.carve nunits prevp p) := by
  obtain ⟨block, nodes', address, tiled', same, exactly⟩ := tiled.carve_spec positive member linked fits
  have pair : h.carve nunits prevp p = (block + 8, (h.carve nunits prevp p).2) := Prod.ext address rfl
  rw [pair]
  exact .served _ nodes' block tiled' (fun b used => (same b used).trans (kept b used)) exactly

/-- The loop of `malloc` ends. After `morecore` the block it made is found before
the loop is back at `freep`. -/
theorem Tiled.search_spec {nunits : Nat} (tiled : Tiled base h live nodes) (known : 0 < base)
    (positive : 0 < nunits) (answer : Nat → Option Nat) : ∃ enough result, Answered base h live nunits result ∧
      Heap.search nunits answer enough h h.freep (h.ptr h.freep) = some result := by
  obtain ⟨_, before, chain, within, -⟩ := tiled.exists_round
  rcases tiled.morecore_spec answer with fails | ⟨h', nodes', tiled', kept, found, grows⟩
  · rcases search_walk 0 chain before with
      ⟨prev, p, member, linked, fits, searched⟩ | ⟨-, searched⟩
    · exact ⟨_, _, tiled.answered_carve (fun _ _ => rfl) positive (within prev member) linked fits, searched⟩
    · rw [fails 0] at searched
      exact ⟨_, _, .refused h nodes tiled fun _ _ => rfl, searched⟩
  · obtain ⟨others', before', chain', within', next⟩ := tiled'.exists_round
    rcases search_walk (others'.length + 1 + nodes.length) chain before with
      ⟨prev, p, member, linked, fits, searched⟩ | ⟨-, searched⟩
    · exact ⟨_, _, tiled.answered_carve (fun _ _ => rfl) positive (within prev member) linked fits, searched⟩
    · have nonnull : h'.freep ≠ 0 := by
        have low := tiled'.listed.base_le _ tiled'.listed.roving
        omega
      simp only [grows (others'.length + 1 + nodes.length) (by omega), if_neg nonnull] at searched
      rcases search_walk nodes.length chain' before' with
        ⟨prev, p, member, linked, fits, searched'⟩ | ⟨small, -⟩
      · exact ⟨_, _, tiled'.answered_carve kept positive (within' prev member) linked fits, searched.trans searched'⟩
      · have here := small h'.freep (by simp)
        have there := small _ next
        omega

end Xv6.Malloc
