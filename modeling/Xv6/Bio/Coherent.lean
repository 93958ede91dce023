import Xv6.Bio.Cache
import Xv6.Data.Count

namespace Xv6.Bio

open Data Function List Option Cache Past
open Past (observe)

/-! Why the cache is coherent: who refers to which buffer, which buffer stands
for a block, and where the latest contents of a block are. -/

variable {P β : Type}

/-- As binit leaves it. All of these stand for block 0 of device 0, and none for its contents. -/
def Buf.Pristine (buf : Buf P β) : Prop := buf.refcnt = 0 ∧ buf.valid = false

/-- The list, and the buffers by their keys. bget looks from the front: a buffer
in use for the key of the pristine ones has to come before them. -/
structure Ring (s : Cache P β) (order : List Index) : Prop where
  perm : order.Perm (List.finRange NBUF)
  circle : s.links.Circle none (order.map some)
  sorted : order.Pairwise fun b c => (s.buf b).Pristine → (s.buf c).Pristine ∨ (s.buf c).key ≠ (0, 0)
  pristine : ∀ b, (s.buf b).Pristine → (s.buf b).key = (0, 0)
  alone : ∀ b c, (s.buf b).key = (s.buf c).key → b = c ∨ (s.buf b).Pristine ∨ (s.buf c).Pristine

/-- The call has a reference to the buffer but has not got its lock, or has no more. -/
def Pc.Refers (b : Index) : Pc → Prop
  | .locking c _ | .releasing c => c = b
  | _ => False

instance (b : Index) : DecidablePred (Pc.Refers b) := fun pc =>
  match pc with
  | .locking c _ | .releasing c => inferInstanceAs (Decidable (c = b))
  | .idle | .reading .. | .writing _ => .isFalse id

def Pc.buf : Pc → Option Index
  | .idle => none
  | .locking b _ | .reading b _ | .writing b | .releasing b => some b

def Pc.Sound (s : Cache P β) (p : P) : Pc → Prop
  | .idle => True
  | .locking b key => (s.buf b).key = key
  | .reading b key => (s.buf b).key = key ∧ (s.buf b).lock = some p
  | .writing b => (s.buf b).lock = some p ∧ (s.buf b).dirty = true
  | .releasing b => (s.buf b).valid = true

/-- The processes and the buffers they refer to. -/
structure Held [Fintype P] (s : Cache P β) : Prop where
  counted : ∀ b, (s.buf b).refcnt = tally (Pc.Refers b) s.pc + (s.buf b).lock.toList.length
  calls : ∀ p, (s.pc p).Sound s p
  dirty : ∀ b, (s.buf b).dirty = true → (s.buf b).valid = true
  locked : ∀ p b, (s.buf b).lock = some p → (s.buf b).valid = true ∨ ∃ key, s.pc p = .reading b key

/-- The contents. A block whose latest contents are not on the disk is pinned by a dirty buffer. -/
structure Faithful (s : Cache P β) (past : Past β) : Prop where
  modified : ∀ b, past.modified b = true → ∃ p, (s.buf b).lock = some p ∧ ∀ key, s.pc p ≠ .reading b key
  latest : ∀ b, (s.buf b).valid = true → past.modified b = false → (s.buf b).data = past.latest (s.buf b).key
  clean : ∀ b, (s.buf b).valid = true → (s.buf b).dirty = false → past.modified b = false → (s.buf b).data = s.disk (s.buf b).key
  pinned : ∀ key, s.disk key = past.latest key ∨ ∃ b, (s.buf b).key = key ∧ (s.buf b).dirty = true

structure Coherent [Fintype P] (s : Cache P β) (past : Past β) : Prop where
  ring : ∃ order, Ring s order
  held : Held s
  faithful : Faithful s past
  breads : ∀ b, past.breads b = (s.buf b).refcnt + past.brelses b
  returns : s.halt ≠ some .endless

section

variable {s : Cache P β} {order : List Index} {test : Index → Bool}

theorem Ring.length (ring : Ring s order) : order.length = NBUF := by
  rw [ring.perm.length_eq, length_finRange]

theorem Ring.mem (ring : Ring s order) (b : Index) : b ∈ order := ring.perm.mem_iff.mpr (mem_finRange b)

theorem find_of_search {follow : Option Index → Option Index} {nodes : List Index}
    (found : Links.search follow none (·.any test) NBUF (follow none) = some ((nodes.map some).find? (·.any test))) :
    Cache.find follow test = some (nodes.find? test) := by
  rw [find, found, List.find?_map]
  have same : ((fun node : Option Index => node.any test) ∘ some) = test := rfl
  rw [same]
  cases nodes.find? test <;> rfl

theorem Ring.find_next (ring : Ring s order) : Cache.find s.links.next test = some (order.find? test) :=
  find_of_search (ring.circle.search_next _ (by simp [ring.length]))

theorem Ring.find_prev (ring : Ring s order) : Cache.find s.links.prev test = some (order.reverse.find? test) := by
  refine find_of_search ?_
  rw [ring.circle.search_prev _ (by simp [ring.length]), map_reverse]

end

section

variable [DecidableEq P]

/-- The steps of the cache. What bget finds is said in terms of the list. -/
inductive Move (s : Cache P β) (order : List Index) : Event P β → Cache P β → Prop
  | hit (p : P) (b : Index) (key : Key) (front back : List Index) (idle : s.pc p = .idle)
      (split : order = front ++ b :: back) (first : ∀ c ∈ front, (s.buf c).key ≠ key) (here : (s.buf b).key = key) :
      Move s order (.bread p key)
        ((s.setBuf b fun buf => { buf with refcnt := buf.refcnt + 1 }).goto p (.locking b key))
  | recycle (p : P) (b : Index) (key : Key) (idle : s.pc p = .idle) (absent : ∀ c, (s.buf c).key ≠ key)
      (free : (s.buf b).refcnt = 0) (clean : (s.buf b).dirty = false) :
      Move s order (.bread p key)
        ((s.setBuf b fun buf => { buf with key, valid := false, dirty := false, refcnt := 1 }).goto p (.locking b key))
  | full (p : P) (key : Key) (idle : s.pc p = .idle) : Move s order (.bread p key) { s with halt := some .noBuffers }
  | lock (p : P) (b : Index) (key : Key) (here : s.pc p = .locking b key) (free : (s.buf b).lock = none) :
      Move s order (.acquiresleep p) ((s.setBuf b fun buf => { buf with lock := some p }).goto p (.reading b key))
  | ready (p : P) (b : Index) (key : Key) (here : s.pc p = .reading b key) (valid : (s.buf b).valid = true) :
      Move s order (.ready p) (s.goto p .idle)
  | fetch (p : P) (b : Index) (key : Key) (here : s.pc p = .reading b key) (invalid : (s.buf b).valid = false) :
      Move s order (.ready p) ((s.iderw b).goto p .idle)
  | modify (p : P) (b : Index) (data : β) (holds : s.Holds p b) :
      Move s order (.modify p b data) (s.setBuf b fun buf => { buf with data })
  | logWrite (p : P) (b : Index) (holds : s.Holds p b) :
      Move s order (.logWrite p b) (s.setBuf b fun buf => { buf with dirty := true })
  | bwrite (p : P) (b : Index) (holds : s.Holds p b) :
      Move s order (.bwrite p b) ((s.setBuf b fun buf => { buf with dirty := true }).goto p (.writing b))
  | transfer (p : P) (b : Index) (here : s.pc p = .writing b) : Move s order (.transfer p) ((s.iderw b).goto p .idle)
  | brelse (p : P) (b : Index) (holds : s.Holds p b) :
      Move s order (.brelse p b) ((s.setBuf b fun buf => { buf with lock := none }).goto p (.releasing b))
  | unref (p : P) (b : Index) (here : s.pc p = .releasing b) : Move s order (.unref p) (s.unref p b)

variable {s next : Cache P β} {order : List Index} {p : P} {event : Event P β}

theorem Ring.bget_move (ring : Ring s order) (idle : s.pc p = .idle) (key : Key) :
    Move s order (.bread p key) (s.bget p key) := by
  unfold Cache.bget
  rw [ring.find_next]
  cases cached : order.find? (fun b => (s.buf b).key = key) with
  | some b =>
    obtain ⟨here, front, back, split, first⟩ := List.find?_eq_some_iff_append.mp cached
    exact .hit p b key front back idle split (by simpa using first) (by simpa using here)
  | none =>
    have absent (c : Index) : (s.buf c).key ≠ key := by
      simpa using List.find?_eq_none.mp cached c (ring.mem c)
    rw [ring.find_prev]
    cases unused : order.reverse.find? (fun b => (s.buf b).refcnt = 0 ∧ (s.buf b).dirty = false) with
    | some b =>
      have free : (s.buf b).refcnt = 0 ∧ (s.buf b).dirty = false := by simpa using List.find?_some unused
      exact .recycle p b key idle absent free.1 free.2
    | none => exact .full p key idle

theorem Ring.move (ring : Ring s order) (stepped : s.step event = some next) : Move s order event next := by
  unfold Cache.step at stepped
  rw [ite_none_right_eq_some] at stepped
  obtain ⟨-, acted⟩ := stepped
  cases event with
  | bread _ key =>
    simp only [act, guarded] at acted
    exact acted.2 ▸ ring.bget_move acted.1 key
  | acquiresleep p =>
    cases here : s.pc p with
    | locking b key =>
      simp only [act, here, guarded] at acted
      exact acted.2 ▸ .lock p b key here acted.1
    | _ => simp [act, here] at acted
  | ready p =>
    cases here : s.pc p with
    | reading b key =>
      simp only [act, here, some.injEq] at acted
      split at acted
      · exact acted ▸ .ready p b key here ‹_›
      · exact acted ▸ .fetch p b key here (eq_false_of_ne_true ‹_›)
    | _ => simp [act, here] at acted
  | modify p b data =>
    simp only [act, guarded] at acted
    exact acted.2 ▸ .modify p b data acted.1
  | logWrite p b =>
    simp only [act, guarded] at acted
    exact acted.2 ▸ .logWrite p b acted.1
  | bwrite p b =>
    simp only [act, guarded] at acted
    exact acted.2 ▸ .bwrite p b acted.1
  | transfer p =>
    cases here : s.pc p with
    | writing b =>
      simp only [act, here, some.injEq] at acted
      exact acted ▸ .transfer p b here
    | _ => simp [act, here] at acted
  | brelse p b =>
    simp only [act, guarded] at acted
    exact acted.2 ▸ .brelse p b acted.1
  | unref p =>
    cases here : s.pc p with
    | releasing b =>
      simp only [act, here, some.injEq] at acted
      exact acted ▸ .unref p b here
    | _ => simp [act, here] at acted

end

section

variable {s : Cache P β} {b c : Index} {change : Buf P β → Buf P β}

theorem setBuf_self : (s.setBuf b change).buf b = change (s.buf b) := update_self ..

theorem setBuf_of_ne (other : c ≠ b) : (s.setBuf b change).buf c = s.buf c := update_of_ne other ..

theorem unref_buf [DecidableEq P] (s : Cache P β) (p : P) (b : Index) :
    (s.unref p b).buf = update s.buf b { s.buf b with refcnt := (s.buf b).refcnt - 1 } := by
  unfold Cache.unref
  dsimp only
  split <;> rfl

theorem unref_pc [DecidableEq P] (s : Cache P β) (p : P) (b : Index) : (s.unref p b).pc = update s.pc p .idle := by
  unfold Cache.unref
  dsimp only
  split <;> rfl

theorem iderw_clean (clean : (s.buf b).dirty = false) :
    s.iderw b = s.setBuf b fun buf => { buf with valid := true, dirty := false, data := s.disk buf.key } := by
  rw [iderw, if_neg (by simp [clean])]

theorem iderw_dirty (dirty : (s.buf b).dirty = true) :
    s.iderw b = { s.setBuf b fun buf => { buf with valid := true, dirty := false } with
      disk := update s.disk (s.buf b).key (s.buf b).data } := by
  rw [iderw, if_pos dirty]

end

theorem save_latest_self (past : Past β) (b : Index) (key : Key) (data : β) : (past.save b key data).latest key = data :=
  update_self ..

/-! ## The list -/

section

variable {s next : Cache P β} {order : List Index} {b : Index} {buf : Buf P β}

theorem updated (bufs : next.buf = update s.buf b buf) : next.buf b = buf ∧ ∀ {c}, c ≠ b → next.buf c = s.buf c := by
  rw [bufs]
  exact ⟨update_self .., fun differs => update_of_ne differs ..⟩

section

variable (ring : Ring s order)
include ring

section

variable (links : next.links = s.links)
include links

theorem Ring.keep (key : ∀ b, (next.buf b).key = (s.buf b).key)
    (pristine : ∀ b, (next.buf b).Pristine ↔ (s.buf b).Pristine) : Ring next order where
  perm := ring.perm
  circle := links ▸ ring.circle
  sorted := by
    refine ring.sorted.imp fun {b c} sorted => ?_
    rw [pristine, pristine, key]
    exact sorted
  pristine := by
    intro b
    rw [pristine, key]
    exact ring.pristine b
  alone := by
    intro b c
    rw [pristine, pristine, key, key]
    exact ring.alone b c

section

variable (bufs : next.buf = update s.buf b buf)
include bufs

theorem Ring.revise
    (key : buf.key = (s.buf b).key) (used : ¬ (s.buf b).Pristine) (using' : ¬ buf.Pristine) : Ring next order := by
  have same (c : Index) : (next.buf c).key = (s.buf c).key ∧ ((next.buf c).Pristine ↔ (s.buf c).Pristine) := by
    rw [bufs]
    by_cases here : c = b
    · subst here
      rw [update_self]
      exact ⟨key, iff_of_false using' used⟩
    · rw [update_of_ne here]
      exact ⟨rfl, Iff.rfl⟩
  exact ring.keep links (fun c => (same c).1) fun c => (same c).2

/-- One buffer is put to use. -/
theorem Ring.put (used : ¬ buf.Pristine)
    (sorted : order.Pairwise fun c d => (next.buf c).Pristine → (next.buf d).Pristine ∨ (next.buf d).key ≠ (0, 0))
    (alone : ∀ c, c ≠ b → (s.buf c).key = buf.key → (s.buf c).Pristine) : Ring next order := by
  obtain ⟨self, other⟩ := updated bufs
  refine ⟨ring.perm, links ▸ ring.circle, sorted, fun c => ?_, fun c d equal => ?_⟩
  · by_cases differs : c = b
    · rw [differs, self]
      exact fun pristine => absurd pristine used
    · rw [other differs]
      exact ring.pristine c
  · by_cases left : c = b
    · by_cases right : d = b
      · exact .inl (left.trans right.symm)
      · rw [left, self, other right] at equal
        rw [other right]
        exact .inr (.inr (alone d right equal.symm))
    · rw [other left] at equal ⊢
      by_cases right : d = b
      · rw [right, self] at equal
        exact .inr (.inl (alone c left equal))
      · rw [other right] at equal ⊢
        exact ring.alone c d equal

/-- A lookup by bget: the first buffer with the key is put to use. -/
theorem Ring.hit {key : Key} {front back : List Index}
    (split : order = front ++ b :: back)
    (first : ∀ c ∈ front, (s.buf c).key ≠ key) (here : (s.buf b).key = key) (same : buf.key = key)
    (used : ¬ buf.Pristine) : Ring next order := by
  obtain ⟨self, other⟩ := updated bufs
  -- behind a pristine buffer every buffer with its key is pristine
  have behind (c : Index) (differs : c ≠ b) (equal : (s.buf c).key = key) (pristine : (s.buf b).Pristine) :
      (s.buf c).Pristine := by
    have place : c ∈ back := by
      have member := ring.mem c
      rw [split, mem_append, mem_cons] at member
      rcases member with ahead | equal | behind
      · exact absurd equal (first c ahead)
      · exact absurd equal differs
      · exact behind
    have sorted := ring.sorted
    rw [split, pairwise_append, pairwise_cons] at sorted
    rcases sorted.2.1.1 c place pristine with pristine | moved
    · exact pristine
    · exact absurd ((equal.trans here.symm).trans (ring.pristine b pristine)) moved
  have alone (c : Index) (differs : c ≠ b) (equal : (s.buf c).key = key) : (s.buf c).Pristine := by
    rcases ring.alone c b (equal.trans here.symm) with same | pristine | pristine
    · exact absurd same differs
    · exact pristine
    · exact behind c differs equal pristine
  refine ring.put links bufs used ?_ fun c differs equal => alone c differs (equal.trans same)
  have sorted := ring.sorted
  have nodup := ring.perm.nodup_iff.mpr (nodup_finRange NBUF)
  rw [split, nodup_append, nodup_cons] at nodup
  obtain ⟨-, ⟨notBack, -⟩, apart⟩ := nodup
  have notFront {c : Index} (member : c ∈ front) : c ≠ b := apart c member b mem_cons_self
  have notB {c : Index} (member : c ∈ back) : c ≠ b := fun equal => notBack (equal ▸ member)
  rw [split, pairwise_append, pairwise_cons] at sorted ⊢
  obtain ⟨inFront, ⟨-, inBack⟩, across⟩ := sorted
  refine ⟨inFront.imp_of_mem fun {c d} left right sorted => ?_, ⟨?_, inBack.imp_of_mem fun {c d} left right sorted => ?_⟩,
    fun c left d right => ?_⟩
  · rw [other (notFront left), other (notFront right)]
    exact sorted
  · intro d _ pristine
    exact absurd (self ▸ pristine) used
  · rw [other (notB left), other (notB right)]
    exact sorted
  · rw [other (notFront left)]
    rcases List.mem_cons.mp right with equal | member
    · intro pristine
      rw [equal, self, same]
      exact .inr fun zero => first c left ((ring.pristine c pristine).trans zero.symm)
    · rw [other (notB member)]
      exact across c left d right

theorem Ring.recycle
    (absent : ∀ c, (s.buf c).key ≠ buf.key) (used : ¬ buf.Pristine) : Ring next order := by
  obtain ⟨self, other⟩ := updated bufs
  refine ring.put links bufs used ?_ fun c _ equal => absurd equal (absent c)
  refine ring.sorted.imp fun {c d} sorted => ?_
  by_cases left : c = b
  · rw [left, self]
    exact fun pristine => absurd pristine used
  · rw [other left]
    by_cases right : d = b
    · rw [right, self]
      exact fun pristine => .inr fun zero => absent c ((ring.pristine c pristine).trans zero.symm)
    · rw [other right]
      exact sorted

end

end

theorem Ring.moveFront (used : ¬ (s.buf b).Pristine) : ∃ order, Ring (s.moveFront b) order := by
  obtain ⟨front, back, rfl⟩ := append_of_mem (ring.mem b)
  have circle := ring.circle
  have sorted := ring.sorted
  rw [map_append, map_cons] at circle
  rw [pairwise_append, pairwise_cons] at sorted
  obtain ⟨inFront, ⟨-, inBack⟩, across⟩ := sorted
  have fresh : some b ∉ none :: (front.map some ++ back.map some) := by
    have nodup := circle.nodup
    rw [nodup_cons, nodup_middle, nodup_cons] at nodup
    simpa using nodup.2.1
  refine ⟨b :: (front ++ back), List.perm_middle.symm.trans ring.perm, ?_, ?_, ring.pristine, ring.alone⟩
  · rw [map_cons, map_append]
    exact circle.unlink.pushFront fresh
  · rw [pairwise_cons, pairwise_append]
    exact ⟨fun c _ pristine => absurd pristine used, inFront, inBack,
      fun c left d right => across c left d (mem_cons_of_mem _ right)⟩

end

theorem Ring.binit (blank : β) (disk : Key → β) : ∃ order, Ring (binit blank disk : Cache P β) order := by
  have empty : (⟨fun _ => none, fun _ => none⟩ : Links (Option Index)).Circle none [] := .empty rfl rfl
  have built := empty.foldl_pushFront ((finRange NBUF).map some) ((nodup_finRange NBUF).map (some_injective _)) (by simp)
  rw [foldl_map, append_nil, ← map_reverse] at built
  have pristine : ({ data := blank } : Buf P β).Pristine := ⟨rfl, rfl⟩
  exact ⟨_, reverse_perm _, built, List.pairwise_iff_forall_sublist.mpr fun _ _ => .inl pristine,
    fun _ _ => rfl, fun _ _ _ => .inr (.inl pristine)⟩

theorem Ring.sole (ring : Ring s order) {b c : Index} (used : 0 < (s.buf b).refcnt) (valid : (s.buf c).valid = true)
    (same : (s.buf c).key = (s.buf b).key) : c = b := by
  rcases ring.alone c b same with equal | pristine | pristine
  · exact equal
  · simp [pristine.2] at valid
  · simp [pristine.1] at used

end

/-! ## The references -/

section

variable {s next : Cache P β} {b : Index} {buf : Buf P β} {p q : P}

/-- What a change of a buffer leaves to a process `q` that works on it. -/
structure Buf.Kept (old new : Buf P β) (q : P) : Prop where
  key : new.key = old.key
  valid : old.valid = true → new.valid = true
  lock : old.lock = some q → new.lock = some q
  dirty : old.lock = some q → old.dirty = true → new.dirty = true

theorem Buf.Kept.refl (buf : Buf P β) (q : P) : buf.Kept buf q := ⟨rfl, id, id, fun _ => id⟩

theorem Pc.Sound.keep {pc : Pc} (sound : pc.Sound s q) (kept : ∀ b, pc.buf = some b → (s.buf b).Kept (next.buf b) q) :
    pc.Sound next q := by
  cases pc with
  | idle => trivial
  | locking b key => exact (kept b rfl).key.trans sound
  | reading b key => exact ⟨(kept b rfl).key.trans sound.1, (kept b rfl).lock sound.2⟩
  | writing b => exact ⟨(kept b rfl).lock sound.1, (kept b rfl).dirty sound.1 sound.2⟩
  | releasing b => exact (kept b rfl).valid sound

variable [Fintype P]

section

variable (held : Held s)
include held

theorem Held.unlocked (free : (s.buf b).refcnt = 0) : (s.buf b).lock = none := by
  have counted := held.counted b
  rw [free] at counted
  cases locked : (s.buf b).lock with
  | none => rfl
  | some => simp [locked] at counted

theorem Held.unreferenced (free : (s.buf b).refcnt = 0) (q : P) : (s.pc q).buf ≠ some b := by
  have unlocked := held.unlocked free
  have counted := held.counted b
  have refers : ¬ (s.pc q).Refers b := not_kind_of_tally_zero (by omega) q
  have sound := held.calls q
  intro mentions
  cases here : s.pc q with
  | idle => simp [here, Pc.buf] at mentions
  | locking | releasing =>
    rw [here] at refers mentions
    exact refers (some.inj mentions)
  | reading | writing =>
    rw [here] at sound mentions
    cases mentions
    simp [Pc.Sound, unlocked] at sound

theorem Held.referenced (refers : (s.pc p).Refers b ∨ (s.buf b).lock = some p) : 0 < (s.buf b).refcnt := by
  rw [held.counted b]
  rcases refers with refers | locked
  · have positive : 0 < tally (Pc.Refers b) s.pc := tally_pos_of_kind refers
    omega
  · simp [locked]

theorem Held.valid (holds : s.Holds p b) : (s.buf b).valid = true :=
  (held.locked p b holds.2).resolve_right (by simp [holds.1])

theorem Held.clean (invalid : (s.buf b).valid = false) : (s.buf b).dirty = false := by
  cases dirty : (s.buf b).dirty with
  | false => rfl
  | true => exact absurd (held.dirty b dirty) (by simp [invalid])

end

variable [DecidableEq P]

theorem Held.revise (held : Held s) (new : Pc) (pc : next.pc = update s.pc p new)
    (bufs : next.buf = update s.buf b buf) (moved : ∀ c, c ≠ b → ((s.pc p).Refers c ↔ new.Refers c))
    (counted : buf.refcnt + (s.buf b).lock.toList.length + (if (s.pc p).Refers b then 1 else 0) =
      (s.buf b).refcnt + buf.lock.toList.length + if new.Refers b then 1 else 0)
    (mine : ∀ after : Cache P β, after.buf b = buf → new.Sound after p)
    (locked : buf.lock = some p → buf.valid = true ∨ ∃ key, new = .reading b key)
    (settled : ∀ c key, s.pc p = .reading c key → c = b)
    (others : ∀ q, q ≠ p → (s.pc q).buf = some b ∨ (s.buf b).lock = some q → (s.buf b).Kept buf q)
    (lock : ∀ q, q ≠ p → buf.lock = some q → (s.buf b).lock = some q)
    (dirty : buf.dirty = true → buf.valid = true) : Held next where
  counted := by
    intro c
    have balance := total_update (fun pc => if Pc.Refers c pc then 1 else 0) s.pc p new
    have before := held.counted c
    rw [pc, bufs]
    unfold tally at before ⊢
    by_cases here : c = b
    · subst here
      rw [update_self]
      omega
    · rw [update_of_ne here]
      simp only [moved c here] at balance
      omega
  calls := by
    intro q
    rw [pc]
    by_cases same : q = p
    · subst same
      rw [update_self]
      exact mine next (by rw [bufs, update_self])
    · rw [update_of_ne same]
      refine (held.calls q).keep fun c works => ?_
      rw [bufs]
      by_cases here : c = b
      · subst here
        rw [update_self]
        exact others q same (.inl works)
      · rw [update_of_ne here]
        exact .refl ..
  dirty := by
    intro c
    rw [bufs]
    by_cases here : c = b
    · subst here
      rw [update_self]
      exact dirty
    · rw [update_of_ne here]
      exact held.dirty c
  locked := by
    intro q c
    rw [bufs, pc]
    by_cases same : q = p
    · subst same
      rw [update_self]
      by_cases here : c = b
      · subst here
        rw [update_self]
        exact locked
      · rw [update_of_ne here]
        intro mine
        rcases held.locked q c mine with valid | ⟨key, reading⟩
        · exact .inl valid
        · exact absurd (settled c key reading) here
    · rw [update_of_ne same]
      by_cases here : c = b
      · subst here
        rw [update_self]
        intro theirs
        have before := lock q same theirs
        exact (held.locked q c before).imp_left (others q same (.inr before)).valid
      · rw [update_of_ne here]
        exact held.locked q c

theorem Held.touch (held : Held s) (new : Pc) (pc : next.pc = update s.pc p new)
    (bufs : next.buf = update s.buf b buf) (mine : (s.buf b).lock = some p)
    (before : ∀ c, ¬ (s.pc p).Refers c) (after : ∀ c, ¬ new.Refers c) (settled : ∀ c key, s.pc p = .reading c key → c = b)
    (sound : ∀ after : Cache P β, after.buf b = buf → new.Sound after p) (key : buf.key = (s.buf b).key)
    (lock : buf.lock = (s.buf b).lock) (refcnt : buf.refcnt = (s.buf b).refcnt) (valid : buf.valid = true) : Held next := by
  refine held.revise new pc bufs (fun c _ => iff_of_false (before c) (after c)) ?_ sound (fun _ => .inl valid) settled ?_ ?_
    fun _ => valid
  · rw [refcnt, lock, if_neg (before b), if_neg (after b)]
  · intro q differs _
    refine ⟨key, fun _ => valid, fun theirs => lock.trans theirs, fun theirs => ?_⟩
    exact absurd (some.inj (theirs.symm.trans mine)) differs
  · exact fun q _ theirs => lock.symm.trans theirs

theorem Held.step {order : List Index} {event : Event P β} (held : Held s) (move : Move s order event next) : Held next := by
  cases move with
  | hit _ b _ _ _ idle _ _ here =>
    refine held.revise (b := b) _ rfl rfl ?_ ?_ ?_ ?_ ?_ (fun q _ _ => ⟨rfl, id, id, fun _ => id⟩) (fun _ _ => id) (held.dirty b)
    · simp +contextual [idle, Pc.Refers, eq_comm]
    · simp [idle, Pc.Refers]
      omega
    · simp +contextual [Pc.Sound, here]
    · intro locked
      exact .inl (held.valid ⟨idle, locked⟩)
    · simp [idle]
  | recycle _ b _ idle _ free =>
    have unlocked := held.unlocked free
    refine held.revise (b := b) _ rfl rfl ?_ ?_ ?_ ?_ ?_ (fun q _ works => ?_) (fun _ _ => id) (by simp)
    · simp +contextual [idle, Pc.Refers, eq_comm]
    · simp [idle, Pc.Refers, free]
      omega
    · simp +contextual [Pc.Sound]
    · simp [unlocked]
    · simp [idle]
    · exact absurd works (by simp [held.unreferenced free q, unlocked])
  | full => exact ⟨held.counted, held.calls, held.dirty, held.locked⟩
  | lock p b key here free =>
    have sound := held.calls p
    rw [here] at sound
    refine held.revise (b := b) _ rfl rfl ?_ ?_ ?_ ?_ ?_ (fun q _ _ => ⟨rfl, id, ?_, fun _ => id⟩) ?_ (held.dirty b)
    · simp +contextual [here, Pc.Refers, eq_comm]
    · simp [here, Pc.Refers, free]
    · intro after same
      rw [Pc.Sound, same]
      exact ⟨sound, rfl⟩
    · exact fun _ => .inr ⟨key, rfl⟩
    · simp [here]
    · simp [free]
    · intro q differs locked
      exact absurd (some.inj locked).symm differs
  | ready p b _ here valid =>
    have sound := held.calls p
    rw [here] at sound
    exact held.touch _ rfl (update_eq_self b s.buf).symm sound.2 (by simp [here, Pc.Refers]) (by simp [Pc.Refers])
      (by simp [here]) (by simp [Pc.Sound]) rfl rfl rfl valid
  | fetch p b _ here invalid =>
    have sound := held.calls p
    rw [here] at sound
    rw [iderw_clean (held.clean invalid)]
    exact held.touch (b := b) _ rfl rfl sound.2 (by simp [here, Pc.Refers]) (by simp [Pc.Refers]) (by simp [here])
      (by simp [Pc.Sound]) rfl rfl rfl rfl
  | modify p b _ holds | logWrite p b holds =>
    exact held.touch (b := b) .idle (holds.1 ▸ (update_eq_self p s.pc).symm) rfl holds.2 (by simp [holds.1, Pc.Refers])
      (by simp [Pc.Refers]) (by simp [holds.1]) (by simp [Pc.Sound]) rfl rfl rfl (held.valid holds)
  | bwrite _ b holds =>
    refine held.touch (b := b) _ rfl rfl holds.2 (by simp [holds.1, Pc.Refers]) (by simp [Pc.Refers]) (by simp [holds.1]) ?_
      rfl rfl rfl (held.valid holds)
    intro after same
    rw [Pc.Sound, same]
    exact ⟨holds.2, rfl⟩
  | transfer p b here =>
    have sound := held.calls p
    rw [here] at sound
    rw [iderw_dirty sound.2]
    exact held.touch (b := b) _ rfl rfl sound.1 (by simp [here, Pc.Refers]) (by simp [Pc.Refers]) (by simp [here])
      (by simp [Pc.Sound]) rfl rfl rfl rfl
  | brelse _ b holds =>
    have valid := held.valid holds
    refine held.revise (b := b) _ rfl rfl ?_ ?_ ?_ (by simp) (by simp [holds.1]) (fun q differs _ => ⟨rfl, id, ?_, fun _ => id⟩)
      (by simp) (held.dirty b)
    · simp +contextual [holds.1, Pc.Refers, eq_comm]
    · simp [holds.1, holds.2, Pc.Refers]
    · simp +contextual [Pc.Sound, valid]
    · intro theirs
      exact absurd (some.inj (theirs.symm.trans holds.2)) differs
  | unref p b here =>
    have positive := held.referenced (p := p) (b := b) (.inl (by simp [here, Pc.Refers]))
    refine held.revise (b := b) (p := p) .idle (unref_pc s p b) (unref_buf s p b) ?_ ?_ (by simp [Pc.Sound]) ?_ (by simp [here])
      (fun q _ _ => ⟨rfl, id, id, fun _ => id⟩) (fun _ _ => id) (held.dirty b)
    · simp +contextual [here, Pc.Refers, eq_comm]
    · simp [here, Pc.Refers]
      omega
    · exact fun locked => .inl ((held.locked p b locked).resolve_right (by simp [here]))

end

section

variable [Fintype P] [DecidableEq P] {s next : Cache P β} {order : List Index} {event : Event P β}

theorem Ring.step (ring : Ring s order) (held : Held s) (move : Move s order event next) : ∃ order, Ring next order := by
  have used {p : P} {b : Index} (refers : (s.pc p).Refers b ∨ (s.buf b).lock = some p) : (s.buf b).refcnt ≠ 0 :=
    (held.referenced refers).ne'
  cases move with
  | hit _ _ _ _ _ _ split first here =>
    exact ⟨order, ring.hit rfl rfl split first here here (by simp [Buf.Pristine])⟩
  | recycle _ _ _ _ absent =>
    exact ⟨order, ring.recycle rfl rfl absent (by simp [Buf.Pristine])⟩
  | full | ready => exact ⟨order, ring.keep rfl (fun _ => rfl) fun _ => Iff.rfl⟩
  | lock p b _ here =>
    have used := used (p := p) (b := b) (.inl (by simp [here, Pc.Refers]))
    exact ⟨order, ring.revise rfl rfl rfl (fun pristine => used pristine.1) fun pristine => used pristine.1⟩
  | fetch p _ _ here invalid =>
    have sound := held.calls p
    rw [here] at sound
    have used := used (.inr sound.2)
    rw [iderw_clean (held.clean invalid)]
    exact ⟨order, ring.revise rfl rfl rfl (fun pristine => used pristine.1) fun pristine => used pristine.1⟩
  | modify _ _ _ holds | logWrite _ _ holds | bwrite _ _ holds | brelse _ _ holds =>
    have used := used (.inr holds.2)
    exact ⟨order, ring.revise rfl rfl rfl (fun pristine => used pristine.1) fun pristine => used pristine.1⟩
  | transfer p _ here =>
    have sound := held.calls p
    rw [here] at sound
    have used := used (.inr sound.1)
    rw [iderw_dirty sound.2]
    exact ⟨order, ring.revise rfl rfl rfl (fun pristine => used pristine.1) fun pristine => used pristine.1⟩
  | unref p b here =>
    have valid := held.calls p
    rw [here, Pc.Sound] at valid
    have dropped : Ring (s.setBuf b fun buf => { buf with refcnt := buf.refcnt - 1 }) order :=
      ring.revise rfl rfl rfl (by simp [Buf.Pristine, valid]) (by simp [Buf.Pristine, valid])
    unfold Cache.unref
    dsimp only
    split
    · obtain ⟨order, moved⟩ := dropped.moveFront (b := b) (by simp [Buf.Pristine, setBuf_self, valid])
      exact ⟨order, moved.keep rfl (fun _ => rfl) fun _ => Iff.rfl⟩
    · exact ⟨order, dropped.keep rfl (fun _ => rfl) fun _ => Iff.rfl⟩

end

/-! ## The contents -/

section

variable {s next : Cache P β} {past : Past β} {b : Index} {buf : Buf P β} {p : P} {later : Past β}

section

variable (faithful : Faithful s past)
include faithful

theorem Faithful.unmodified (unlocked : (s.buf b).lock = none) : past.modified b = false := by
  cases modified : past.modified b with
  | false => rfl
  | true =>
    obtain ⟨q, locked, -⟩ := faithful.modified b modified
    simp [unlocked] at locked

section

variable (bufs : next.buf = update s.buf b buf)
include bufs

theorem Faithful.revise
    (reading : ∀ q c key, c ≠ b → next.pc q = .reading c key → s.pc q = .reading c key)
    (modified : ∀ c, c ≠ b → later.modified c = past.modified c) (blocks : ∀ c, c ≠ b → (s.buf c).valid = true →
      later.latest (s.buf c).key = past.latest (s.buf c).key ∧ next.disk (s.buf c).key = s.disk (s.buf c).key)
    (holder : later.modified b = true → ∃ q, buf.lock = some q ∧ ∀ key, next.pc q ≠ .reading b key)
    (latest : buf.valid = true → later.modified b = false → buf.data = later.latest buf.key)
    (clean : buf.valid = true → buf.dirty = false → later.modified b = false → buf.data = next.disk buf.key)
    (pinned : ∀ key, next.disk key = later.latest key ∨ ∃ c, (next.buf c).key = key ∧ (next.buf c).dirty = true) :
    Faithful next later where
  modified := by
    intro c
    by_cases here : c = b
    · subst here
      rw [bufs, update_self]
      exact holder
    · rw [bufs, update_of_ne here, modified c here]
      intro changed
      obtain ⟨q, locked, elsewhere⟩ := faithful.modified c changed
      exact ⟨q, locked, fun key now => elsewhere key (reading q c key here now)⟩
  latest := by
    intro c
    by_cases here : c = b
    · subst here
      rw [bufs, update_self]
      exact latest
    · rw [bufs, update_of_ne here, modified c here]
      intro valid unmodified
      rw [(blocks c here valid).1]
      exact faithful.latest c valid unmodified
  clean := by
    intro c
    by_cases here : c = b
    · subst here
      rw [bufs, update_self]
      exact clean
    · rw [bufs, update_of_ne here, modified c here]
      intro valid kept unmodified
      rw [(blocks c here valid).2]
      exact faithful.clean c valid kept unmodified
  pinned := pinned

theorem Faithful.pins
    (disk : next.disk = s.disk) (latest : later.latest = past.latest)
    (kept : (s.buf b).dirty = true → buf.key = (s.buf b).key ∧ buf.dirty = true) (key : Key) :
    next.disk key = later.latest key ∨ ∃ c, (next.buf c).key = key ∧ (next.buf c).dirty = true := by
  rw [disk, latest]
  refine (faithful.pinned key).imp_right fun ⟨c, here, dirty⟩ => ⟨c, ?_⟩
  rw [bufs]
  by_cases same : c = b
  · subst same
    rw [update_self]
    exact ⟨(kept dirty).1.trans here, (kept dirty).2⟩
  · rw [update_of_ne same]
    exact ⟨here, dirty⟩

theorem Faithful.keep
    (disk : next.disk = s.disk) (latest : later.latest = past.latest) (modified : later.modified = past.modified)
    (reading : ∀ q c key, c ≠ b → next.pc q = .reading c key → s.pc q = .reading c key)
    (holder : past.modified b = true → ∃ q, buf.lock = some q ∧ ∀ key, next.pc q ≠ .reading b key)
    (same : buf.valid = (s.buf b).valid ∧ buf.dirty = (s.buf b).dirty ∧ buf.key = (s.buf b).key ∧
      buf.data = (s.buf b).data) : Faithful next later := by
  obtain ⟨valid, dirty, key, data⟩ := same
  refine faithful.revise bufs reading (fun c _ => by rw [modified]) (fun c _ _ => by rw [latest, disk]; exact ⟨rfl, rfl⟩)
    (by rwa [modified]) ?_ ?_ (faithful.pins bufs disk latest fun pinned => ⟨key, dirty.trans pinned⟩)
  · rw [valid, modified, data, latest, key]
    exact faithful.latest b
  · rw [valid, dirty, modified, data, disk, key]
    exact faithful.clean b

end

end

variable [DecidableEq P]

theorem goto_reading {new : Pc} {q : P} {c : Index} {key : Key} (elsewhere : new ≠ .reading c key)
    (reading : update s.pc p new q = .reading c key) : q ≠ p ∧ s.pc q = .reading c key := by
  by_cases same : q = p
  · subst same
    rw [update_self] at reading
    exact absurd reading elsewhere
  · rw [update_of_ne same] at reading
    exact ⟨same, reading⟩

variable [Fintype P]

theorem Faithful.step {order : List Index} {event : Event P β} (faithful : Faithful s past) (ring : Ring s order)
    (held : Held s) (disciplined : ∀ p b, event = .brelse p b → past.modified b = false)
    (move : Move s order event next) : Faithful next (past.observe s event next) := by
  -- a process that finishes a call or enters one other than the end of bget is not reading
  have holder {q : P} {b : Index} {new : Pc} (modified : past.modified b = true) (elsewhere : ∀ key, new ≠ .reading b key) :
      ∃ r, (s.buf b).lock = some r ∧ ∀ key, update s.pc q new r ≠ .reading b key := by
    obtain ⟨r, locked, apart⟩ := faithful.modified b modified
    exact ⟨r, locked, fun key reading => apart key (goto_reading (elsewhere key) reading).2⟩
  cases move with
  | hit p b key =>
    have same : past.observe s (.bread p key)
        ((s.setBuf b fun buf => { buf with refcnt := buf.refcnt + 1 }).goto p (.locking b key)) = past.bread b := by
      simp [observe, Cache.goto]
    rw [same]
    exact faithful.keep (b := b) rfl rfl rfl rfl (fun q c key _ reading => (goto_reading (by simp) reading).2)
      (fun modified => holder modified (by simp)) ⟨rfl, rfl, rfl, rfl⟩
  | recycle p b key _ _ free clean =>
    have same : past.observe s (.bread p key)
        ((s.setBuf b fun buf => { buf with key, valid := false, dirty := false, refcnt := 1 }).goto p (.locking b key)) =
          past.bread b := by
      simp [observe, Cache.goto]
    have unmodified := faithful.unmodified (held.unlocked free)
    rw [same]
    refine faithful.revise (b := b) rfl (fun q c key _ reading => (goto_reading (by simp) reading).2) (fun _ _ => rfl)
      (fun _ _ _ => ⟨rfl, rfl⟩) ?_ (by simp) (by simp) (faithful.pins rfl rfl rfl (by simp [clean]))
    intro modified
    simp [Past.bread, unmodified] at modified
  | full p key idle =>
    have same : past.observe s (.bread p key) { s with halt := some .noBuffers } = past := by
      simp [observe, idle]
    rw [same]
    exact ⟨faithful.modified, faithful.latest, faithful.clean, faithful.pinned⟩
  | lock _ b _ _ free =>
    have unmodified := faithful.unmodified free
    refine faithful.keep (b := b) rfl rfl rfl rfl ?_ (by simp [unmodified]) ⟨rfl, rfl, rfl, rfl⟩
    intro q c key' differs reading
    exact (goto_reading (by simp [differs.symm]) reading).2
  | ready _ b key =>
    exact faithful.keep (b := b) (update_eq_self b s.buf).symm rfl rfl rfl
      (fun q c key _ reading => (goto_reading (by simp) reading).2) (fun modified => holder modified (by simp)) ⟨rfl, rfl, rfl, rfl⟩
  | fetch p b key here invalid =>
    have clean := held.clean invalid
    have sound := held.calls p
    rw [here] at sound
    have fresh : s.disk (s.buf b).key = past.latest (s.buf b).key := by
      rcases faithful.pinned (s.buf b).key with equal | ⟨c, same, dirty⟩
      · exact equal
      · have valid := held.dirty c dirty
        rw [ring.sole (held.referenced (.inr sound.2)) valid same, invalid] at valid
        contradiction
    rw [iderw_clean clean]
    exact faithful.revise (b := b) rfl (fun q c key _ reading => (goto_reading (by simp) reading).2) (fun _ _ => rfl)
      (fun _ _ _ => ⟨rfl, rfl⟩) (fun modified => holder modified (by simp)) (fun _ _ => fresh) (fun _ _ _ => rfl)
      (faithful.pins rfl rfl rfl (by simp [clean]))
  | modify p b _ holds =>
    refine faithful.revise (b := b) rfl (fun q c key _ => id) (fun c differs => update_of_ne differs ..)
      (fun _ _ _ => ⟨rfl, rfl⟩) (fun _ => ⟨p, holds.2, ?_⟩) ?_ ?_ (faithful.pins rfl rfl rfl fun dirty => ⟨rfl, dirty⟩)
    · intro key reading
      exact absurd (holds.1.symm.trans reading) (by simp)
    · simp [observe, Past.modify]
    · simp [observe, Past.modify]
  | logWrite p b holds =>
    have apart (c : Index) (differs : c ≠ b) (valid : (s.buf c).valid = true) : (s.buf c).key ≠ (s.buf b).key :=
      fun same => differs (ring.sole (held.referenced (.inr holds.2)) valid same)
    refine faithful.revise (b := b) rfl (fun q c key _ => id) (fun c differs => update_of_ne differs ..)
      (fun c differs valid => ⟨update_of_ne (apart c differs valid) .., rfl⟩) ?_ ?_ (by simp) fun key => ?_
    · simp [observe, Past.save]
    · exact fun _ _ => (save_latest_self past b _ _).symm
    · by_cases same : key = (s.buf b).key
      · exact .inr ⟨b, by rw [setBuf_self]; exact ⟨same.symm, rfl⟩⟩
      · have unlogged : (past.observe s (.logWrite p b) (s.setBuf b fun buf => { buf with dirty := true })).latest key =
            past.latest key := update_of_ne same ..
        rw [unlogged]
        refine (faithful.pinned key).imp_right fun ⟨c, here, dirty⟩ => ⟨c, ?_⟩
        have differs : c ≠ b := fun equal => same (by rw [← here, equal])
        rw [setBuf_of_ne differs]
        exact ⟨here, dirty⟩
  | bwrite _ b =>
    exact faithful.revise (b := b) rfl (fun q c key _ reading => (goto_reading (by simp) reading).2) (fun _ _ => rfl)
      (fun _ _ _ => ⟨rfl, rfl⟩) (fun modified => holder modified (by simp)) (faithful.latest b) (by simp)
      (faithful.pins rfl rfl rfl fun _ => ⟨rfl, rfl⟩)
  | transfer p b here =>
    have sound := held.calls p
    rw [here] at sound
    have apart (c : Index) (differs : c ≠ b) (valid : (s.buf c).valid = true) : (s.buf c).key ≠ (s.buf b).key :=
      fun same => differs (ring.sole (held.referenced (.inr sound.1)) valid same)
    rw [iderw_dirty sound.2]
    have same (next : Cache P β) : past.observe s (.transfer p) next = past.save b (s.buf b).key (s.buf b).data := by
      simp [observe, here]
    have written : update s.disk (s.buf b).key (s.buf b).data (s.buf b).key = (s.buf b).data := update_self ..
    have written_of_ne {key : Key} (other : key ≠ (s.buf b).key) :
        update s.disk (s.buf b).key (s.buf b).data key = s.disk key := update_of_ne other ..
    rw [same]
    refine faithful.revise (b := b) rfl (fun q c key _ reading => (goto_reading (by simp) reading).2)
      (fun c differs => update_of_ne differs ..)
      (fun c differs valid => ⟨update_of_ne (apart c differs valid) .., written_of_ne (apart c differs valid)⟩)
      ?_ ?_ ?_ fun key => ?_
    · simp [Past.save]
    · exact fun _ _ => (save_latest_self past b _ _).symm
    · exact fun _ _ _ => written.symm
    · by_cases here : key = (s.buf b).key
      · subst here
        rw [save_latest_self]
        exact .inl written
      · refine (faithful.pinned key).imp (fun equal => ?_) fun ⟨c, holds, dirty⟩ => ⟨c, ?_⟩
        · exact (written_of_ne here).trans (equal.trans (update_of_ne here ..).symm)
        · have differs : c ≠ b := fun equal => here (by rw [← holds, equal])
          change (update s.buf b _ c).key = key ∧ (update s.buf b _ c).dirty = true
          rw [update_of_ne differs]
          exact ⟨holds, dirty⟩
  | brelse p b =>
    have unmodified := disciplined p b rfl
    exact faithful.keep (b := b) rfl rfl rfl rfl (fun q c key _ reading => (goto_reading (by simp) reading).2)
      (by simp [unmodified]) ⟨rfl, rfl, rfl, rfl⟩
  | unref p b here =>
    have same : past.observe s (.unref p) (s.unref p b) = past.brelse b := by simp [observe, here]
    have disk : (s.unref p b).disk = s.disk := by
      unfold Cache.unref
      dsimp only
      split <;> rfl
    rw [same]
    refine faithful.keep (b := b) (unref_buf s p b) disk rfl rfl ?_ ?_ ⟨rfl, rfl, rfl, rfl⟩
    · intro q c key _ reading
      rw [unref_pc] at reading
      exact (goto_reading (by simp) reading).2
    · intro modified
      rw [unref_pc]
      exact holder modified (by simp)

end

section

variable {s next : Cache P β} {past : Past β} {order : List Index} {event : Event P β} [Fintype P]

theorem Coherent.binit (blank : β) (disk : Key → β) : Coherent (binit blank disk : Cache P β) { latest := disk } where
  ring := Ring.binit blank disk
  held := by
    refine ⟨fun b => ?_, fun _ => trivial, fun b dirty => ?_, fun p b locked => ?_⟩
    · have none : tally (Pc.Refers b) (Bio.binit blank disk : Cache P β).pc = 0 := tally_eq_zero fun _ => id
      rw [none]
      rfl
    · simp [Bio.binit] at dirty
    · simp [Bio.binit] at locked
  faithful := by
    refine ⟨fun b modified => ?_, fun b valid => ?_, fun b valid => ?_, fun key => .inl rfl⟩
    · simp at modified
    · simp [Bio.binit] at valid
    · simp [Bio.binit] at valid
  breads := fun _ => rfl
  returns := by simp [Bio.binit]

variable [DecidableEq P]

theorem Held.breads (held : Held s) (breads : ∀ b, past.breads b = (s.buf b).refcnt + past.brelses b)
    (move : Move s order event next) (c : Index) :
    (past.observe s event next).breads c = (next.buf c).refcnt + (past.observe s event next).brelses c := by
  have kept (b : Index) (buf : Buf P β) (bufs : next.buf = update s.buf b buf)
      (same : buf.refcnt = (s.buf b).refcnt) : past.breads c = (next.buf c).refcnt + past.brelses c := by
    rw [breads, bufs]
    by_cases here : c = b
    · subst here
      rw [update_self, same]
    · rw [update_of_ne here]
  cases move with
  | hit _ b =>
    simp only [observe, Cache.goto, update_self, Past.bread]
    by_cases same : c = b
    · subst same
      rw [update_self, setBuf_self, breads]
      dsimp only
      omega
    · rw [update_of_ne same, setBuf_of_ne same, breads]
  | recycle _ b _ _ _ free =>
    simp only [observe, Cache.goto, update_self, Past.bread]
    by_cases same : c = b
    · subst same
      rw [update_self, setBuf_self, breads, free]
      dsimp only
      omega
    · rw [update_of_ne same, setBuf_of_ne same, breads]
  | full _ _ idle => simpa [observe, idle] using breads c
  | ready => exact breads c
  | fetch _ b _ _ invalid =>
    rw [iderw_clean (held.clean invalid)] at kept ⊢
    exact kept b _ rfl rfl
  | transfer p b here =>
    have sound := held.calls p
    rw [here] at sound
    rw [iderw_dirty sound.2] at kept ⊢
    simp only [observe, here]
    exact kept b _ rfl rfl
  | lock _ b | modify _ b | logWrite _ b | bwrite _ b | brelse _ b => exact kept b _ rfl rfl
  | unref p b here =>
    have positive := held.referenced (p := p) (b := b) (.inl (by simp [here, Pc.Refers]))
    simp only [observe, here, Past.brelse, unref_buf]
    by_cases same : c = b
    · subst same
      rw [update_self, update_self, breads]
      dsimp only
      omega
    · rw [update_of_ne same, update_of_ne same, breads]

omit [Fintype P] in
theorem Move.returns (returns : s.halt ≠ some .endless) (move : Move s order event next) : next.halt ≠ some .endless := by
  cases move with
  | full => simp
  | fetch | transfer =>
    unfold iderw
    split <;> exact returns
  | unref =>
    unfold Cache.unref
    dsimp only
    split <;> exact returns
  | _ => exact returns

theorem Coherent.step (coherent : Coherent s past) (disciplined : ∀ p b, event = .brelse p b → past.modified b = false)
    (stepped : s.step event = some next) : Coherent next (past.observe s event next) := by
  obtain ⟨_, ring⟩ := coherent.ring
  have move := ring.move stepped
  exact ⟨ring.step coherent.held move, coherent.held.step move,
    coherent.faithful.step ring coherent.held disciplined move, coherent.held.breads coherent.breads move,
    move.returns coherent.returns⟩

theorem Move.pinned (move : Move s order event next) (held : Held s) {b : Index}
    (used : 0 < (s.buf b).refcnt ∨ (s.buf b).dirty = true) : (next.buf b).key = (s.buf b).key := by
  have kept (c : Index) (buf : Buf P β) (bufs : next.buf = update s.buf c buf)
      (same : b = c → buf.key = (s.buf c).key) : (next.buf b).key = (s.buf b).key := by
    rw [bufs]
    by_cases here : b = c
    · rw [here, update_self, same here]
    · rw [update_of_ne here]
  cases move with
  | recycle _ c _ _ _ free clean =>
    refine kept c _ rfl fun same => ?_
    rw [same, free, clean] at used
    simp at used
  | full | ready => rfl
  | fetch _ c _ _ invalid =>
    rw [iderw_clean (held.clean invalid)] at kept ⊢
    exact kept c _ rfl fun _ => rfl
  | transfer p c here =>
    have sound := held.calls p
    rw [here] at sound
    rw [iderw_dirty sound.2] at kept ⊢
    exact kept c _ rfl fun _ => rfl
  | unref p c => exact kept c _ (unref_buf s p c) fun _ => rfl
  | hit _ c | lock _ c | modify _ c | logWrite _ c | bwrite _ c | brelse _ c => exact kept c _ rfl fun _ => rfl

theorem Coherent.ready (coherent : Coherent s past) {p : P} {b : Index} {key : Key}
    (here : s.pc p = .reading b key) (stepped : s.step (.ready p) = some next) :
    (next.buf b).lock = some p ∧ (next.buf b).key = key ∧ (next.buf b).data = (past.observe s (.ready p) next).latest key := by
  obtain ⟨_, ring⟩ := coherent.ring
  have later := coherent.step (by simp) stepped
  have unmodified : past.modified b = false := by
    cases modified : past.modified b with
    | false => rfl
    | true =>
      obtain ⟨q, locked, elsewhere⟩ := coherent.faithful.modified b modified
      have sound := coherent.held.calls p
      rw [here] at sound
      cases sound.2.symm.trans locked
      exact absurd here (elsewhere key)
  have sound := coherent.held.calls p
  rw [here] at sound
  have fields : (next.buf b).lock = some p ∧ (next.buf b).key = key ∧ (next.buf b).valid = true := by
    cases ring.move stepped with
    | ready _ _ _ there valid =>
      cases here.symm.trans there
      exact ⟨sound.2, sound.1, valid⟩
    | fetch _ _ _ there invalid =>
      cases here.symm.trans there
      rw [iderw_clean (coherent.held.clean invalid)]
      simp only [goto, setBuf_self]
      exact ⟨sound.2, sound.1, trivial⟩
  refine ⟨fields.1, fields.2.1, ?_⟩
  rw [later.faithful.latest b fields.2.2 unmodified, fields.2.1]

theorem Coherent.safe (coherent : Coherent s past) (disciplined : ∀ p b, event = .brelse p b → past.modified b = false)
    (stepped : s.step event = some next) : CacheSafe (s, past) event (next, past.observe s event next) := by
  obtain ⟨_, ring⟩ := coherent.ring
  have later := coherent.step disciplined stepped
  obtain ⟨order', ring'⟩ := later.ring
  refine ⟨⟨order', ring'.perm, ring'.circle⟩, later.returns, fun b c same device => ?_, later.breads, fun b =>
    (ring.move stepped).pinned coherent.held, fun b unlocked valid clean => ?_, fun p b key ready here => ?_⟩
  · rcases ring'.alone b c same with equal | pristine | pristine
    · exact equal
    · exact absurd (congrArg Prod.fst (ring'.pristine b pristine)) device
    · exact absurd (congrArg Prod.fst (same.trans (ring'.pristine c pristine))) device
  · exact later.faithful.clean b valid clean (later.faithful.unmodified unlocked)
  · subst ready
    exact coherent.ready here stepped

end

/-- Every run of the cache from binit in which buffers are given back as they should be. -/
theorem buffer_cache_coherent [DecidableEq P] [Fintype P] (blank : β) (disk : Key → β) (events : List (Event P β))
    (disciplined : EveryStep (withHistory Cache.step observe) Disciplined (binit blank disk, { latest := disk }) events) :
    EveryStep (withHistory Cache.step observe) CacheSafe
      (binit blank disk, { latest := disk }) events := by
  refine (runs_along (fun s => Coherent s.1 s.2) (.binit blank disk) disciplined
    (fun before event after coherent disciplined stepped => ?_)).1
  obtain ⟨moved, recorded⟩ := withHistory_step stepped
  have unmodified (p : P) (b : Index) (released : event = .brelse p b) : before.2.modified b = false := by
    subst released
    exact disciplined
  have safe := coherent.safe unmodified moved
  rw [← recorded] at safe
  refine ⟨?_, safe⟩
  rw [recorded]
  exact coherent.step unmodified moved

/-- A block is logged by one process while another waits for its buffer, and written by the other. -/
def sharedBlock : List (Event Bool Nat) :=
  [.bread true (1, 2), .acquiresleep true, .bread false (1, 2), .ready true, .modify true 0 7, .logWrite true 0,
    .brelse true 0, .acquiresleep false, .ready false, .unref true, .modify false 0 8, .bwrite false 0, .transfer false,
    .brelse false 0, .unref false]

theorem buffer_cache_coherent_sharedBlock :
    (run (withHistory Cache.step observe) (binit 0 fun _ => 5, { latest := fun _ => 5 }) sharedBlock).map
        (fun (s, past) => ((s.buf 0).data, s.disk (1, 2), past.breads 0, past.brelses 0)) = some (8, 8, 2, 2) ∧
      EveryStep (withHistory Cache.step observe) CacheSafe (binit 0 fun _ => 5, { latest := fun _ => 5 })
        sharedBlock :=
  ⟨by decide +kernel, buffer_cache_coherent 0 (fun _ => 5) sharedBlock (by decide +kernel)⟩

end Xv6.Bio
