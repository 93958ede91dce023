import Xv6.Data.Roving
import Xv6.Malloc.Heap

namespace Xv6.Malloc

open Data Function List Nat Heap

variable {base bp p : Nat} {h : Heap} {nodes : List Nat} {a b : Nat} {nunits prevp : Nat} {fuel : Nat}

/-! The free list: what its loops visit and how a block enters it. -/

def Heap.Links (h : Heap) (a b : Nat) : Prop := h.ptr a = b

/-- A block ends below another one, with something between them. -/
def Heap.Below (h : Heap) (a b : Nat) : Prop := a + 8 * h.size a < b

/-- The nodes of the free list in the order of their addresses. -/
structure Listed (base : Nat) (h : Heap) (nodes : List Nat) : Prop where
  first : nodes.head? = some base
  closed : (nodes ++ [base]).IsChain h.Links
  apart : nodes.IsChain h.Below
  header : h.size base = 0
  sized : ∀ b ∈ nodes, b ≠ base → 0 < h.size b
  roving : h.freep ∈ nodes

/-- A block that is on no list. -/
structure Outside (base : Nat) (h : Heap) (nodes : List Nat) (bp : Nat) : Prop where
  above : base < bp
  sized : 0 < h.size bp
  clear : ∀ b ∈ nodes, b + 8 * h.size b ≤ bp ∨ bp + 8 * h.size bp ≤ b

theorem Outside.not_mem (outside : Outside base h nodes bp) : bp ∉ nodes := fun member => by
  have sized := outside.sized
  have clear := outside.clear bp member
  omega

theorem Heap.Below.lt (below : h.Below a b) : a < b := by
  rw [Heap.Below] at below
  omega

instance : Trans h.Below h.Below h.Below where
  trans first second := by
    rw [Heap.Below] at first second ⊢
    omega

section

variable (listed : Listed base h nodes)
include listed

theorem Listed.sorted : nodes.Pairwise (· < ·) := listed.apart.pairwise.imp Heap.Below.lt

theorem Listed.below_of_lt (first : a ∈ nodes) (second : b ∈ nodes) (less : a < b) : h.Below a b := by
  rcases eq_or_related listed.apart.pairwise first second with same | below | above
  · exact absurd same less.ne
  · exact below
  · exact absurd above.lt less.asymm

theorem Listed.base_mem : base ∈ nodes := List.mem_of_head? listed.first

theorem Listed.base_le : ∀ b ∈ nodes, base ≤ b := by
  have sorted := listed.sorted
  have first := listed.first
  intro b member
  cases nodes with
  | nil => cases member
  | cons =>
    cases first
    rcases List.mem_cons.mp member with rfl | later
    · exact le_rfl
    · exact (rel_of_pairwise_cons sorted later).le

theorem Listed.next_cases {x : Nat} (member : x ∈ nodes) :
    (h.ptr x ∈ nodes ∧ x < h.ptr x ∧ ∀ z ∈ nodes, z ≤ x ∨ h.ptr x ≤ z) ∨ (h.ptr x = base ∧ ∀ z ∈ nodes, z ≤ x) := by
  have sorted := listed.sorted
  have closed := listed.closed
  obtain ⟨front, back, rfl⟩ := append_of_mem member
  rw [append_assoc, cons_append] at closed
  have chain := (List.isChain_split.mp closed).2
  obtain ⟨-, upper, lower⟩ := List.pairwise_append.mp sorted
  have before (z : Nat) (member : z ∈ front) : z < x := lower z member x mem_cons_self
  cases back with
  | nil =>
    right
    have wraps : h.Links x base := List.isChain_pair.mp chain
    refine ⟨wraps, fun z member => ?_⟩
    rcases List.mem_append.mp member with earlier | here
    · exact (before z earlier).le
    · exact (List.mem_singleton.mp here).le
  | cons y =>
    left
    have linked : h.ptr x = y := (List.isChain_cons_cons.mp chain).1
    rw [linked]
    refine ⟨by simp, rel_of_pairwise_cons upper mem_cons_self, fun z member => ?_⟩
    rcases List.mem_append.mp member with earlier | later
    · exact .inl (before z earlier).le
    · rcases List.mem_cons.mp later with rfl | later
      · exact .inl le_rfl
      · rcases List.mem_cons.mp later with rfl | later
        · exact .inr le_rfl
        · exact .inr (rel_of_pairwise_cons upper.of_cons later).le

theorem Listed.ptr_mem {x : Nat} (member : x ∈ nodes) : h.ptr x ∈ nodes := by
  rcases listed.next_cases member with ⟨inside, -⟩ | ⟨wraps, -⟩
  · exact inside
  · exact wraps ▸ listed.base_mem

end

/-! Where `free` stops. -/

def Heap.Stops (h : Heap) (bp p : Nat) : Prop := (p < bp ∧ bp < h.ptr p) ∨ (h.ptr p ≤ p ∧ (p < bp ∨ bp < h.ptr p))

theorem Heap.place_of_stops (stops : h.Stops bp p) : h.place bp (fuel + 1) p = some p := by
  rw [place]
  rcases stops with between | wraps
  · rw [if_pos between]
  · rw [if_pos wraps, ite_self]

theorem Heap.place_of_not_stops (goes : ¬ h.Stops bp p) : h.place bp (fuel + 1) p = h.place bp fuel (h.ptr p) := by
  rw [place, if_neg fun between => goes (.inl between), if_neg fun wraps => goes (.inr wraps)]

theorem Heap.place_path {path : List Nat} {x fuel : Nat} (enough : path.length < fuel)
    (starts : (path ++ [p]).head? = some x) (chain : (path ++ [p]).IsChain h.Links)
    (goes : ∀ z ∈ path, ¬ h.Stops bp z) (stops : h.Stops bp p) : h.place bp fuel x = some p := by
  induction path generalizing x fuel with
  | nil =>
    obtain rfl : p = x := by simpa using starts
    obtain ⟨fuel, rfl⟩ := exists_eq_add_one_of_ne_zero (Nat.ne_of_gt enough)
    exact h.place_of_stops stops
  | cons z path ih =>
    obtain rfl : z = x := by simpa using starts
    obtain ⟨fuel, rfl⟩ : ∃ less, fuel = less + 1 :=
      exists_eq_add_one_of_ne_zero (Nat.ne_of_gt (zero_lt_of_lt enough))
    rw [h.place_of_not_stops (goes z mem_cons_self)]
    obtain ⟨linked, rest⟩ := List.isChain_cons.mp chain
    have follows : (path ++ [p]).head? = some (h.ptr z) := by
      cases found : (path ++ [p]).head? with
      | none => simp at found
      | some next => rw [show h.ptr z = next from linked next found]
    have room : path.length < fuel := lt_of_succ_lt_succ enough
    exact ih room follows rest fun a member => goes a (mem_cons_of_mem z member)

theorem Listed.stops_iff (listed : Listed base h nodes) (above : base < bp) (member : p ∈ nodes)
    (below : p < bp) (greatest : ∀ z ∈ nodes, z ≤ p ∨ bp < z) {x : Nat} (inside : x ∈ nodes) : h.Stops bp x ↔ x = p := by
  have here := greatest x inside
  constructor
  · intro stops
    rcases listed.next_cases inside with ⟨-, up, gap⟩ | ⟨wraps, last⟩
    · have there := gap p member
      rcases stops with ⟨left, right⟩ | ⟨down, -⟩ <;> omega
    · have there := last p member
      rw [Heap.Stops, wraps] at stops
      omega
  · rintro rfl
    rcases listed.next_cases inside with ⟨next, up, -⟩ | ⟨wraps, -⟩
    · have there := greatest _ next
      exact .inl ⟨below, by omega⟩
    · exact .inr ⟨wraps ▸ listed.base_le x inside, .inl below⟩

theorem Listed.place_ends (listed : Listed base h nodes) (outside : Outside base h nodes bp) :
    ∃ front p back, nodes = front ++ p :: back ∧ p + 8 * h.size p ≤ bp ∧ (∀ z ∈ back, bp + 8 * h.size bp ≤ z) ∧
      ∀ fuel, nodes.length ≤ fuel → h.place bp fuel h.freep = some p := by
  obtain ⟨front, p, back, split, below, more⟩ :=
    exists_place listed.sorted listed.first outside.above
  have sized := outside.sized
  have member : p ∈ nodes := split ▸ mem_append_right _ mem_cons_self
  have left : p + 8 * h.size p ≤ bp := (outside.clear p member).resolve_right (by omega)
  have right (z : Nat) (later : z ∈ back) : bp + 8 * h.size bp ≤ z := by
    have inside : z ∈ nodes := split ▸ mem_append_right _ (mem_cons_of_mem p later)
    refine (outside.clear z inside).resolve_left fun above => ?_
    have beyond := more z later
    have above := outside.above
    have positive := listed.sized z inside (by omega)
    omega
  have greatest (z : Nat) (inside : z ∈ nodes) : z ≤ p ∨ bp < z := by
    have sorted := listed.sorted
    rw [split] at inside sorted
    rcases List.mem_append.mp inside with earlier | later
    · exact .inl ((List.pairwise_append.mp sorted).2.2 z earlier p mem_cons_self).le
    · rcases List.mem_cons.mp later with rfl | later
      · exact .inl le_rfl
      · have beyond := right z later
        exact .inr (by omega)
  refine ⟨front, p, back, split, left, right, fun fuel enough => ?_⟩
  have stops {x : Nat} (inside : x ∈ nodes) : h.Stops bp x ↔ x = p := listed.stops_iff outside.above member below greatest inside
  obtain ⟨path, starts, chain, unmet, within, _⟩ :=
    exists_path listed.closed listed.first listed.roving member
  have goes (z : Nat) (visited : z ∈ path) : ¬ h.Stops bp z := fun stopped =>
    unmet ((stops (within z visited)).mp stopped ▸ visited)
  exact h.place_path (by omega) starts chain goes ((stops member).mpr rfl)

/-! Joining a block to its neighbours. Each of the two steps writes one header,
and neither changes which units there are. -/

structure Touches (h h' : Heap) (header : Nat) : Prop where
  ptr : ∀ a ≠ header, h'.ptr a = h.ptr a
  size : ∀ a ≠ header, h'.size a = h.size a
  top : h'.top = h.top
  regions : h'.regions = h.regions

theorem Heap.joinUpper_touches : Touches h (h.joinUpper bp p) bp := by
  rw [Heap.joinUpper]
  split
  · exact ⟨fun a other => update_of_ne other _ _, fun a other => update_of_ne other _ _, rfl, rfl⟩
  · exact ⟨fun a other => update_of_ne other _ _, fun _ _ => rfl, rfl, rfl⟩

theorem Heap.joinLower_touches : Touches h (h.joinLower bp p) p := by
  rw [Heap.joinLower]
  split
  · exact ⟨fun a other => update_of_ne other _ _, fun a other => update_of_ne other _ _, rfl, rfl⟩
  · exact ⟨fun a other => update_of_ne other _ _, fun _ _ => rfl, rfl, rfl⟩

theorem Heap.joinUpper_joins (joins : bp + 8 * h.size bp = h.ptr p) : (h.joinUpper bp p).ptr bp = h.ptr (h.ptr p) ∧
      (h.joinUpper bp p).size bp = h.size bp + h.size (h.ptr p) := by
  simp [Heap.joinUpper, joins]

theorem Heap.joinUpper_links (gap : bp + 8 * h.size bp ≠ h.ptr p) :
    (h.joinUpper bp p).ptr bp = h.ptr p ∧ (h.joinUpper bp p).size bp = h.size bp := by
  simp [Heap.joinUpper, gap]

theorem Heap.joinLower_joins (joins : p + 8 * h.size p = bp) : (h.joinLower bp p).ptr p = h.ptr bp ∧
      (h.joinLower bp p).size p = h.size p + h.size bp := by
  simp [Heap.joinLower, joins]

theorem Heap.joinLower_links (gap : p + 8 * h.size p ≠ bp) :
    (h.joinLower bp p).ptr p = bp ∧ (h.joinLower bp p).size p = h.size p := by
  simp [Heap.joinLower, gap]

theorem Heap.flatMap_units_congr {h' : Heap} {blocks : List Nat} (same : ∀ a ∈ blocks, h'.size a = h.size a) :
    blocks.flatMap h'.units = blocks.flatMap h.units :=
  flatMap_congr fun a member => by rw [Heap.units, Heap.units, same a member]

section

variable {h' : Heap} {header x : Nat} {front back : List Nat} (touches : Touches h h' header)
include touches

theorem Touches.links (chain : (front ++ [x]).IsChain h.Links) (without : header ∉ front) : (front ++ [x]).IsChain h'.Links := by
  refine isChain_of_sources (fun a member b linked => ?_) chain
  rw [Heap.Links, touches.ptr a fun same => without (same ▸ member)]
  exact linked

theorem Touches.below (chain : (front ++ [x]).IsChain h.Below) (without : header ∉ front) : (front ++ [x]).IsChain h'.Below := by
  refine isChain_of_sources (fun a member b below => ?_) chain
  rw [Heap.Below, touches.size a fun same => without (same ▸ member)]
  exact below

theorem Touches.below_all (chain : back.IsChain h.Below) (without : header ∉ back) : back.IsChain h'.Below := by
  refine chain.imp_of_mem_imp fun a b member _ below => ?_
  rw [Heap.Below, touches.size a fun same => without (same ▸ member)]
  exact below

theorem Touches.retarget (chain : (x :: (back ++ [base])).IsChain h.Links)
    (target : h'.ptr header = h.ptr x) (without : header ∉ back) : (header :: (back ++ [base])).IsChain h'.Links := by
  obtain ⟨linked, tail⟩ := List.isChain_cons.mp chain
  refine List.isChain_cons.mpr ⟨fun b next => ?_, touches.links tail without⟩
  exact target.trans (linked b next)

theorem Touches.units (without : header ∉ back) : back.flatMap h'.units = back.flatMap h.units :=
  flatMap_units_congr fun a member => touches.size a fun same => without (same ▸ member)

end

theorem Heap.units_joined {h' : Heap} (touching : a + 8 * h.size a = b) (joined : h'.size a = h.size a + h.size b) :
    h'.units a = h.units a ++ h.units b := by
  rw [Heap.units, Heap.units, Heap.units, joined, ← touching, range'_append]

/-- What `joinUpper` leaves: the block heads the part of the list above it. -/
structure Upper (base : Nat) (h h' : Heap) (bp : Nat) (back back' : List Nat) : Prop where
  closed : (bp :: (back' ++ [base])).IsChain h'.Links
  apart : (bp :: back').IsChain h'.Below
  subset : ∀ z ∈ back', z ∈ back
  units : (bp :: back').flatMap h'.units = (bp :: back).flatMap h.units
  grown : h.size bp ≤ h'.size bp
  shorter : back'.length ≤ back.length

theorem Heap.joinUpper_spec {back : List Nat} (above : base < bp) (sized : 0 < h.size bp)
    (closed : (p :: (back ++ [base])).IsChain h.Links) (apart : back.IsChain h.Below)
    (higher : ∀ z ∈ back, bp + 8 * h.size bp ≤ z) : ∃ back', Upper base h (h.joinUpper bp p) bp back back' := by
  have touches : Touches h (h.joinUpper bp p) bp := h.joinUpper_touches
  have without : bp ∉ back := fun member => absurd (higher bp member) (by omega)
  by_cases joins : bp + 8 * h.size bp = h.ptr p
  · obtain ⟨ptr, size⟩ := h.joinUpper_joins joins
    cases back with
    | nil =>
      have wraps : h.Links p base := List.isChain_pair.mp closed
      rw [Heap.Links] at wraps
      omega
    | cons q back =>
      obtain ⟨linked, tail⟩ := List.isChain_cons_cons.mp closed
      have linked : h.ptr p = q := linked
      rw [linked] at joins ptr size
      obtain ⟨beyond, apart⟩ := List.isChain_cons.mp apart
      have outside : bp ∉ back := fun member => without (mem_cons_of_mem q member)
      refine ⟨back, touches.retarget tail ptr outside, ?_, fun z => mem_cons_of_mem q, ?_, by omega, by simp⟩
      · refine List.isChain_cons.mpr ⟨fun z next => ?_, touches.below_all apart outside⟩
        have below : q + 8 * h.size q < z := beyond z next
        rw [Heap.Below, size]
        omega
      · rw [flatMap_cons, touches.units outside, units_joined joins size, flatMap_cons, flatMap_cons, append_assoc]
  · obtain ⟨ptr, size⟩ := h.joinUpper_links joins
    refine ⟨back, touches.retarget closed ptr without, ?_, fun z member => member, ?_, size.ge, le_rfl⟩
    · refine List.isChain_cons.mpr ⟨fun z next => ?_, touches.below_all apart without⟩
      have linked : h.ptr p = z := by
        refine (List.isChain_cons.mp closed).1 z ?_
        rw [head?_append, Option.mem_def.mp next]
        rfl
      have beyond := higher z (List.mem_of_head? next)
      rw [Heap.Below, size]
      omega
    · rw [flatMap_cons, touches.units without, flatMap_cons, Heap.units, size]
      rfl

/-- What `joinLower` leaves of a list that was split after `p`. -/
structure Entered (base : Nat) (h h' : Heap) (bp p : Nat) (front back' nodes : List Nat) : Prop where
  first : nodes.head? = (front ++ [p]).head?
  closed : (nodes ++ [base]).IsChain h'.Links
  apart : nodes.IsChain h'.Below
  subset : ∀ z ∈ nodes, z ∈ front ++ p :: bp :: back'
  member : p ∈ nodes
  units : nodes.flatMap h'.units = front.flatMap h.units ++ h.units p ++ (bp :: back').flatMap h.units
  grown : h.size p ≤ h'.size p
  found : h.size bp ≤ h'.size p ∨ h'.ptr p = bp ∧ h'.size bp = h.size bp
  shorter : nodes.length ≤ front.length + back'.length + 2

theorem Heap.joinLower_spec {front back : List Nat} (lower : p + 8 * h.size p ≤ bp)
    (closed : (front ++ [p]).IsChain h.Links) (apart : (front ++ [p]).IsChain h.Below)
    (upper : (bp :: (back ++ [base])).IsChain h.Links) (beyond : (bp :: back).IsChain h.Below)
    (ahead : p ∉ front) (behind : p ∉ bp :: back) : ∃ nodes, Entered base h (h.joinLower bp p) bp p front back nodes := by
  have touches : Touches h (h.joinLower bp p) p := h.joinLower_touches
  have after : p ∉ back := fun member => behind (mem_cons_of_mem bp member)
  by_cases joins : p + 8 * h.size p = bp
  · obtain ⟨ptr, size⟩ := h.joinLower_joins joins
    obtain ⟨next, beyond⟩ := List.isChain_cons.mp beyond
    refine ⟨front ++ p :: back, ?_⟩
    exact {
      first := by simp
      closed := by
        rw [append_assoc, cons_append]
        exact List.isChain_split.mpr ⟨touches.links closed ahead, touches.retarget upper ptr after⟩
      apart := by
        refine List.isChain_split.mpr ⟨touches.below apart ahead, ?_⟩
        refine List.isChain_cons.mpr ⟨fun z head => ?_, touches.below_all beyond after⟩
        have below : bp + 8 * h.size bp < z := next z head
        rw [Heap.Below, size]
        omega
      subset := fun z member => by
        simp only [mem_append, mem_cons] at member ⊢
        tauto
      member := mem_append_right _ mem_cons_self
      units := by
        rw [flatMap_append, flatMap_cons, touches.units ahead, touches.units after,
          units_joined joins size, flatMap_cons, append_assoc, append_assoc]
      grown := by omega
      found := .inl (by omega)
      shorter := by simp only [length_append, length_cons]; omega }
  · obtain ⟨ptr, size⟩ := h.joinLower_links joins
    have other : bp ≠ p := fun same => behind (same ▸ mem_cons_self)
    refine ⟨front ++ p :: bp :: back, ?_⟩
    exact {
      first := by simp
      closed := by
        rw [append_assoc, cons_append]
        refine List.isChain_split.mpr ⟨touches.links closed ahead, ?_⟩
        exact List.isChain_cons_cons.mpr ⟨ptr, touches.links upper behind⟩
      apart := by
        refine List.isChain_split.mpr ⟨touches.below apart ahead, ?_⟩
        refine List.isChain_cons_cons.mpr ⟨?_, touches.below_all beyond behind⟩
        rw [Heap.Below, size]
        omega
      subset := fun z member => member
      member := mem_append_right _ mem_cons_self
      units := by
        rw [flatMap_append, flatMap_cons, touches.units ahead, touches.units behind, Heap.units, size, ← Heap.units, append_assoc]
      grown := size.ge
      found := .inr ⟨ptr, touches.size bp other⟩
      shorter := by simp only [length_append, length_cons]; omega }

/-- What `free` does to the list. -/
structure Freed (base : Nat) (h h' : Heap) (bp : Nat) (nodes nodes' : List Nat) : Prop where
  listed : Listed base h' nodes'
  units : (nodes'.flatMap h'.units).Perm (h.units bp ++ nodes.flatMap h.units)
  size : ∀ a, a ≠ bp → a ∉ nodes → h'.size a = h.size a
  top : h'.top = h.top
  regions : h'.regions = h.regions
  found : h.size bp ≤ h'.size h'.freep ∨ h.size bp ≤ h'.size (h'.ptr h'.freep)
  shorter : nodes'.length ≤ nodes.length + 1

theorem Listed.free_spec (listed : Listed base h nodes) (outside : Outside base h nodes bp) :
    ∃ h' nodes', Freed base h h' bp nodes nodes' ∧ ∀ fuel, nodes.length ≤ fuel → h.free fuel (bp + 8) = some h' := by
  obtain ⟨front, p, back, rfl, lower, higher, ends⟩ := listed.place_ends outside
  have above := outside.above
  have sized := outside.sized
  have sorted := listed.sorted
  obtain ⟨closedFront, closedBack⟩ := List.isChain_split.mp
    (show (front ++ p :: (back ++ [base])).IsChain h.Links by simpa using listed.closed)
  obtain ⟨apartFront, apartBack⟩ := List.isChain_split.mp listed.apart
  obtain ⟨-, sortedBack, across⟩ := List.pairwise_append.mp sorted
  have ahead : p ∉ front := fun member => absurd (across p member p mem_cons_self) (by omega)
  have behind : p ∉ back := fun member => absurd (rel_of_pairwise_cons sortedBack member) (by omega)
  have unlisted : bp ∉ front := fun member => outside.not_mem (mem_append_left _ member)
  have differs : p ≠ bp := fun same => outside.not_mem (by simp [same])
  obtain ⟨back', upper⟩ := h.joinUpper_spec above sized closedBack (List.isChain_cons.mp apartBack).2 higher
  have first : Touches h (h.joinUpper bp p) bp := h.joinUpper_touches
  have behind' : p ∉ bp :: back' := fun member => by
    rcases List.mem_cons.mp member with same | later
    · exact differs same
    · exact behind (upper.subset p later)
  have lower' : p + 8 * (h.joinUpper bp p).size p ≤ bp := by rw [first.size p differs]; exact lower
  obtain ⟨nodes', entered⟩ := (h.joinUpper bp p).joinLower_spec lower' (first.links closedFront unlisted)
    (first.below apartFront unlisted) upper.closed upper.apart ahead behind'
  have second : Touches (h.joinUpper bp p) ((h.joinUpper bp p).joinLower bp p) p := joinLower_touches
  have kept (a : Nat) (other : a ≠ bp) (apart : a ≠ p) :
      ((h.joinUpper bp p).joinLower bp p).size a = h.size a :=
    (second.size a apart).trans (first.size a other)
  have member (z : Nat) (found : z ∈ nodes') : z = bp ∨ z ∈ front ++ p :: back := by
    have found := entered.subset z found
    have from_back (later : z ∈ back') : z ∈ back := upper.subset z later
    simp only [mem_append, mem_cons] at found ⊢
    tauto
  refine ⟨{ (h.joinUpper bp p).joinLower bp p with freep := p }, nodes', ?_, fun fuel enough => ?_⟩
  · exact {
      listed := {
        first := entered.first.trans (by simpa [head?_append] using listed.first)
        closed := entered.closed
        apart := entered.apart
        header := by
          have empty : (h.joinUpper bp p).size base = 0 := (first.size base above.ne).trans listed.header
          by_cases same : base = p
          · subst same
            exact (joinLower_links (by omega)).2.trans empty
          · exact (second.size base same).trans empty
        sized := fun z found other => by
          by_cases same : z = p
          · subst same
            have before := listed.sized z (by simp) other
            have grown := entered.grown
            rw [first.size z differs] at grown
            exact Nat.lt_of_lt_of_le before grown
          · rcases member z found with rfl | listedBefore
            · have grown := upper.grown
              rw [← second.size z same] at grown
              exact Nat.lt_of_lt_of_le sized grown
            · have apart : z ≠ bp := fun same => outside.not_mem (same ▸ listedBefore)
              exact (kept z apart same).symm ▸ listed.sized z listedBefore other
        roving := entered.member }
      units := by
        change (nodes'.flatMap ((h.joinUpper bp p).joinLower bp p).units).Perm _
        rw [entered.units, upper.units, first.units unlisted, Heap.units, first.size p differs, perm_iff_count]
        intro unit
        simp only [flatMap_append, flatMap_cons, count_append, Heap.units]
        omega
      size := fun a other unmet => kept a other fun same => unmet (by simp [same])
      top := second.top.trans first.top
      regions := second.regions.trans first.regions
      found := by
        have grown := upper.grown
        rcases entered.found with joined | ⟨linked, same⟩
        · exact .inl (grown.trans joined)
        · right
          rw [linked, same]
          exact grown
      shorter := by
        have short := upper.shorter
        have short' := entered.shorter
        simp only [length_append, length_cons]
        omega }
  · rw [Heap.free, Nat.add_sub_cancel, ends fuel enough]

theorem Listed.touch {h' : Heap} {header : Nat} (listed : Listed base h nodes)
    (touches : Touches h h' header) (without : header ∉ nodes) (roving : h'.freep = h.freep) : Listed base h' nodes where
  first := listed.first
  closed := touches.links listed.closed without
  apart := touches.below_all listed.apart without
  header := (touches.size base fun same => without (same ▸ listed.base_mem)).trans listed.header
  sized b member other := by
    rw [touches.size b fun same => without (same ▸ member)]
    exact listed.sized b member other
  roving := roving ▸ listed.roving

/-! Taking a block, or the tail of one, off the list. -/

/-- What `carve` does: `block` leaves the list with `nunits` units. -/
structure Carved (base : Nat) (h h' : Heap) (nunits p block : Nat) (nodes nodes' : List Nat) : Prop where
  listed : Listed base h' nodes'
  units : (h'.units block ++ nodes'.flatMap h'.units).Perm (nodes.flatMap h.units)
  exactly : h'.size block = nunits
  inside : block ∈ h.units p
  size : ∀ a, a ≠ block → a ∉ nodes → h'.size a = h.size a
  top : h'.top = h.top
  regions : h'.regions = h.regions

theorem Listed.carve_whole (listed : Listed base h nodes) (positive : 0 < nunits)
    (member : prevp ∈ nodes) (linked : h.ptr prevp = p) (fits : h.size p = nunits) :
    ∃ nodes', Carved base h (h.carve nunits prevp p).2 nunits p p nodes nodes' ∧ (h.carve nunits prevp p).1 = p + 8 := by
  have other : p ≠ base := by
    rintro rfl
    have empty := listed.header
    omega
  obtain ⟨front, back, rfl⟩ := exists_next listed.closed member (fun z next => next.symm.trans linked) other
  have value : h.carve nunits prevp p =
      (p + 8, { h with ptr := update h.ptr prevp (h.ptr p), freep := prevp }) := by
    rw [Heap.carve, if_pos fits]
  rw [value]
  refine ⟨front ++ prevp :: back, ?_, rfl⟩
  have touches : Touches h { h with ptr := update h.ptr prevp (h.ptr p), freep := prevp } prevp :=
    ⟨fun a other => update_of_ne other _ _, fun _ _ => rfl, rfl, rfl⟩
  obtain ⟨closedFront, closedBack⟩ := List.isChain_split.mp
    (show (front ++ prevp :: p :: (back ++ [base])).IsChain h.Links by simpa using listed.closed)
  obtain ⟨apartFront, apartBack⟩ := List.isChain_split.mp listed.apart
  obtain ⟨-, sortedBack, across⟩ := List.pairwise_append.mp listed.sorted
  have ahead : prevp ∉ front := fun member =>
    absurd (across prevp member prevp mem_cons_self) (lt_irrefl prevp)
  have behind : prevp ∉ back := fun member =>
    absurd (rel_of_pairwise_cons sortedBack (mem_cons_of_mem p member)) (lt_irrefl prevp)
  exact {
    listed := {
      first := by simpa [head?_append] using listed.first
      closed := by
        rw [append_assoc, cons_append]
        refine List.isChain_split.mpr ⟨touches.links closedFront ahead, ?_⟩
        exact touches.retarget (List.isChain_cons_cons.mp closedBack).2 (update_self _ _ _) behind
      apart := by
        refine List.isChain_split.mpr ⟨apartFront, List.isChain_cons.mpr ⟨fun z next => ?_, ?_⟩⟩
        · have below := (List.isChain_cons.mp (List.isChain_cons_cons.mp apartBack).2).1 z next
          exact Trans.trans (List.isChain_cons_cons.mp apartBack).1 below
        · exact (List.isChain_cons.mp (List.isChain_cons_cons.mp apartBack).2).2
      header := listed.header
      sized := fun b member other => listed.sized b (by
        simp only [mem_append, mem_cons] at member ⊢
        tauto) other
      roving := by simp }
    units := by
      change (h.units p ++ (front ++ prevp :: back).flatMap h.units).Perm _
      rw [perm_iff_count]
      intro unit
      simp only [flatMap_append, flatMap_cons, count_append]
      omega
    exactly := fits
    inside := by
      rw [Heap.units, mem_range']
      exact ⟨0, by omega, rfl⟩
    size := fun _ _ _ => rfl
    top := rfl
    regions := rfl }

theorem Listed.carve_tail (listed : Listed base h nodes) (positive : 0 < nunits)
    (member : prevp ∈ nodes) (linked : h.ptr prevp = p) (fits : nunits < h.size p) :
    ∃ nodes' block, Carved base h (h.carve nunits prevp p).2 nunits p block nodes nodes' ∧
      (h.carve nunits prevp p).1 = block + 8 := by
  have value : h.carve nunits prevp p =
      (p + 8 * (h.size p - nunits) + 8, { h with
        size := update (update h.size p (h.size p - nunits))
          (p + 8 * (h.size p - nunits)) nunits
        freep := prevp }) := by
    rw [Heap.carve, if_neg fits.ne']
  rw [value]
  have here : p ∈ nodes := linked ▸ listed.ptr_mem member
  have other : p ≠ base := by
    rintro rfl
    have empty := listed.header
    omega
  have outside : p + 8 * (h.size p - nunits) ∉ nodes := fun inside => by
    have below := listed.below_of_lt here inside (by omega)
    rw [Heap.Below] at below
    omega
  refine ⟨nodes, p + 8 * (h.size p - nunits), ?_, rfl⟩
  generalize blockIs : p + 8 * (h.size p - nunits) = block at outside ⊢
  generalize heapIs : ({ h with
    size := update (update h.size p (h.size p - nunits)) block nunits
    freep := prevp } : Heap) = h'
  have apart : p ≠ block := by omega
  have left : h'.size p = h.size p - nunits := by
    rw [← heapIs]
    exact (update_of_ne apart _ _).trans (update_self _ _ _)
  have taken : h'.size block = nunits := by
    rw [← heapIs]
    exact update_self _ _ _
  have kept (a : Nat) (notBlock : a ≠ block) (notHere : a ≠ p) : h'.size a = h.size a := by
    rw [← heapIs]
    exact (update_of_ne notBlock _ _).trans (update_of_ne notHere _ _)
  have smaller (a : Nat) (listed : a ∈ nodes) : h'.size a ≤ h.size a := by
    by_cases same : a = p
    · rw [same, left]
      exact sub_le _ _
    · exact (kept a (fun same => outside (same ▸ listed)) same).le
  have joined : h.units p = h'.units p ++ h'.units block := units_joined (by omega) (by omega)
  change Carved base h h' nunits p block nodes nodes
  exact {
    listed := {
      first := listed.first
      closed := by
        subst heapIs
        exact listed.closed
      apart := listed.apart.imp_of_mem_imp fun a b member _ below => by
        have less := smaller a member
        rw [Heap.Below] at below ⊢
        omega
      header := eq_zero_of_le_zero (listed.header ▸ smaller base listed.base_mem)
      sized := fun b member notBase => by
        by_cases same : b = p
        · rw [same, left]
          omega
        · rw [kept b (fun same => outside (same ▸ member)) same]
          exact listed.sized b member notBase
      roving := by
        subst heapIs
        exact member }
    units := by
      have sorted := listed.sorted
      obtain ⟨front, back, rfl⟩ := append_of_mem here
      obtain ⟨-, sortedBack, across⟩ := List.pairwise_append.mp sorted
      have ahead : front.flatMap h'.units = front.flatMap h.units := by
        refine flatMap_units_congr fun a member => kept a ?_ ?_
        · exact fun same => outside (same ▸ mem_append_left _ member)
        · exact (across a member p mem_cons_self).ne
      have behind : back.flatMap h'.units = back.flatMap h.units := by
        refine flatMap_units_congr fun a member => kept a ?_ ?_
        · exact fun same => outside (same ▸ mem_append_right _ (mem_cons_of_mem p member))
        · exact (rel_of_pairwise_cons sortedBack member).ne'
      rw [perm_iff_count]
      intro unit
      simp only [flatMap_append, flatMap_cons, count_append, ahead, behind, joined]
      omega
    exactly := taken
    inside := by
      rw [Heap.units, mem_range']
      exact ⟨h.size p - nunits, by omega, blockIs.symm⟩
    size := fun a notBlock unlisted => kept a notBlock fun same => unlisted (same ▸ here)
    top := by
      subst heapIs
      rfl
    regions := by
      subst heapIs
      rfl }

end Xv6.Malloc
