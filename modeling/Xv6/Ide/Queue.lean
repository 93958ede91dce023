import Xv6.Ide.Driver
import Xv6.Sync.Outline

namespace Xv6.Ide

open Process Data Sync Bio List Option

/-! The queue of the disk driver is the list of the requests that are not yet
done, in order, and its first one is on the disk. -/

namespace Driver

variable {d : Driver} {b : Index} {valid dirty : Bool} {pp : Option Index} {rest : List Index} {b' : Index}

/-- The queue through the pointers is the queue of the record. -/
structure Ordered (d : Driver) : Prop where
  linked : Linked d.qnext d.idequeue d.pending
  nodup : d.pending.Nodup
  order : d.submitted = d.completed ++ d.pending
  unsynced : ∀ b ∈ d.pending, d.synced b = false

/-- The first request, and none besides, is on the disk. -/
def Begun (d : Driver) : Prop := d.started = d.completed ++ d.pending.head?.toList

theorem synced_prepare_of_ne (other : b' ≠ b) :
    (d.prepare b valid dirty).synced b' = d.synced b' := by
  simp [synced, prepare, other]

theorem synced_finish_of_ne (other : b' ≠ b) : (d.finish b).synced b' = d.synced b' := by
  simp [synced, finish, other]

theorem synced_store (b' : Index) : (d.store pp b).synced b' = d.synced b' := by
  cases pp <;> rfl

section

variable (ordered : d.Ordered)
include ordered

theorem Ordered.pending_store (pp : Option Index) : (d.store pp b).pending = d.pending ++ [b] := by
  have short : d.completed.length ≤ d.submitted.length := by
    rw [ordered.order, length_append]
    exact Nat.le_add_right ..
  cases pp <;> exact drop_append_of_le_length short

theorem Ordered.pending_finish (pending : d.pending = b :: rest) :
    (d.finish b).pending = rest := by
  have order := ordered.order
  rw [pending] at order
  simp [Driver.pending, finish, order]

theorem Ordered.prepare (fresh : b ∉ d.pending) :
    (d.prepare b valid dirty).Ordered where
  linked := ordered.linked.update fresh
  nodup := ordered.nodup
  order := ordered.order
  unsynced b' member := by
    have other : b' ≠ b := fun same => fresh (same ▸ member)
    rw [synced_prepare_of_ne other]
    exact ordered.unsynced b' member

theorem Ordered.store (fresh : b ∉ d.pending) (ends : d.qnext b = none)
    (unsynced : d.synced b = false) (last : pp = d.pending.getLast?) : (d.store pp b).Ordered := by
  have nodup : (d.pending ++ [b]).Nodup := by
    rw [nodup_append]
    refine ⟨ordered.nodup, nodup_singleton b, fun b' member c single same => fresh ?_⟩
    rw [mem_singleton] at single
    rwa [← single, ← same]
  refine ⟨?_, by rwa [ordered.pending_store], ?_, fun b' member => ?_⟩
  · rw [ordered.pending_store, last]
    have linked := ordered.linked
    have distinct := ordered.nodup
    rcases eq_nil_or_concat d.pending with none | ⟨front, node, split⟩
    · rw [none] at fresh ⊢
      exact ⟨rfl, ends⟩
    · rw [concat_eq_append] at split
      rw [split] at linked distinct fresh ⊢
      rw [getLast?_concat, append_assoc]
      exact linked.append distinct fresh ends
  · rw [ordered.pending_store]
    have order := ordered.order
    cases pp <;> simp only [Driver.store, order, append_assoc]
  · rw [synced_store]
    rw [ordered.pending_store, mem_append, mem_singleton] at member
    rcases member with member | rfl
    · exact ordered.unsynced b' member
    · exact unsynced

theorem Ordered.finish (pending : d.pending = b :: rest) : (d.finish b).Ordered := by
  have linked := ordered.linked
  have nodup := ordered.nodup
  have order := ordered.order
  rw [pending] at linked nodup order
  refine ⟨?_, ?_, ?_, fun b' member => ?_⟩
  · rw [ordered.pending_finish pending]
    exact linked.2
  · rw [ordered.pending_finish pending]
    exact (List.nodup_cons.mp nodup).2
  · rw [ordered.pending_finish pending]
    simpa [Driver.finish] using order
  · rw [ordered.pending_finish pending] at member
    have other : b' ≠ b := fun same => (List.nodup_cons.mp nodup).1 (same ▸ member)
    rw [synced_finish_of_ne other]
    exact ordered.unsynced b' (by simp [pending, member])

end

end Driver

/-- What iderw and ideintr wait for on a channel: that its buffer is synced. -/
def ready (chan : Chan) (d : Driver) : Bool := (List.finRange NBUF).any fun b => chan = bufChan b ∧ d.synced b = true

section

variable {b : Index} {d d' : Driver} {owed : List Chan} {chan : Chan}

theorem bufChan_inj {b' : Index} : bufChan b = bufChan b' ↔ b = b' := by
  simp [bufChan, Fin.ext_iff]

@[simp] theorem ready_bufChan : ready (bufChan b) d = d.synced b := by
  cases synced : d.synced b <;> simp_all [ready, bufChan_inj]

theorem raise_same : raise code ready d d owed = owed := by
  simp [raise]

theorem raise_eq (kept : ∀ b, d'.synced b = true → d.synced b = true) : raise code ready d d' owed = owed := by
  have none : (code.channels.filter fun chan => !ready chan d && ready chan d') = [] := by
    refine List.filter_eq_nil_iff.mpr fun chan member => ?_
    obtain ⟨b, -, rfl⟩ := List.mem_map.mp member
    cases now : d'.synced b with
    | false => simp [now]
    | true => simp [kept b now]
  rw [raise, none, append_nil]

end

def outline : Outline Driver Point where
  free d := d.Ordered ∧ d.Begun
  back
    | .append _ valid dirty => (valid && !dirty) = false
    | .wait _ | .intr => True
    | _ => False
  asleep chan k := ∃ b, chan = bufChan b ∧ k = .wait b
  good _ d owed k := d.Ordered ∧ owed = [] ∧
    match k with
    | .append b valid dirty => d.Begun ∧ b ∉ d.pending ∧ (valid && !dirty) = false
    | .walk b pp => d.Begun ∧ b ∉ d.pending ∧ d.qnext b = none ∧ d.synced b = false ∧
        ∃ front back, d.pending = front ++ back ∧ pp = front.getLast?
    | .begin b => ∃ front, d.pending = front ++ [b] ∧ d.started = d.completed ++ front.head?.toList
    | .wait b => d.Begun ∧ (b ∈ d.pending ∨ d.synced b = true)
    | .done b => d.Begun ∧ d.synced b = true
    | .intr | .finished => d.Begun
    | .next => d.started = d.completed

theorem outline_sound : outline.Sound code where
  other := rfl
  entry k entry := by
    cases k with
    | append _ valid dirty =>
      change (!(valid && !dirty)) = true at entry
      rwa [Bool.not_eq_true'] at entry
    | wait | intr => trivial
    | _ => simp [code] at entry

section

variable {old d : Driver} {owed : List Chan} {killed : Bool}

theorem outline_walk {b : Index} {pp : Option Index} (good : outline.good old d owed (.walk b pp)) :
    outline.Correct code ready killed old d owed (.walk b pp) := by
  obtain ⟨ordered, rfl, begun, fresh, ends, unsynced, front, back, split, last⟩ := good
  have linked := ordered.linked
  rw [split] at linked
  have rest := linked.drop
  rw [← last] at rest
  unfold Outline.Correct
  cases back with
  | nil =>
    have run : code.run (.walk b pp) d = (d.store pp b, .goto (.begin b)) := by
      simp only [code]
      rw [show link d.qnext d.idequeue pp = none from rest]
    rw [append_nil] at split
    simp only [run]
    refine ⟨ordered.store fresh ends unsynced (by rw [split, last]), raise_eq fun b' => ?_, d.pending, ?_, ?_⟩
    · rw [Driver.synced_store]
      exact id
    · rw [ordered.pending_store]
    · have same : d.started = d.completed ++ d.pending.head?.toList := begun
      cases pp <;> exact same
  | cons node back =>
    have run : code.run (.walk b pp) d = (d, .goto (.walk b (some node))) := by
      simp only [code]
      rw [show link d.qnext d.idequeue pp = some node from rest.1]
    simp only [run, raise_same]
    exact ⟨ordered, rfl, begun, fresh, ends, unsynced, front ++ [node], back, by simp [split], by simp⟩

theorem outline_begin {b : Index} (good : outline.good old d owed (.begin b)) :
    outline.Correct code ready killed old d owed (.begin b) := by
  obtain ⟨ordered, rfl, front, split, begun⟩ := good
  have run : code.run (.begin b) d = (if d.idequeue = some b then d.idestart b else d, .goto (.wait b)) := rfl
  have member : b ∈ d.pending := by simp [split]
  have start := ordered.linked.start_eq
  have nodup := ordered.nodup
  rw [split] at start nodup
  unfold Outline.Correct
  simp only [run]
  cases front with
  | nil =>
    have first : d.idequeue = some b := start
    rw [if_pos first]
    refine ⟨⟨ordered.linked, ordered.nodup, ordered.order, ordered.unsynced⟩, raise_eq fun _ => id, ?_, .inl member⟩
    have pending : (d.idestart b).pending = [b] := split
    have started : d.started = d.completed := by simpa using begun
    rw [Driver.Begun, pending, show (d.idestart b).started = d.started ++ [b] from rfl, started]
    rfl
  | cons first =>
    have other : first ≠ b := by
      rintro rfl
      simp at nodup
    have later : d.idequeue ≠ some b := by
      rw [start]
      simpa using other
    rw [if_neg later]
    refine ⟨ordered, raise_same, ?_, .inl member⟩
    simpa [Driver.Begun, split] using begun

theorem outline_intr (good : outline.good old d owed .intr) : outline.Correct code ready killed old d owed .intr := by
  obtain ⟨ordered, rfl, begun⟩ := good
  have start := ordered.linked.start_eq
  unfold Outline.Correct
  cases pending : d.pending with
  | nil =>
    have run : code.run .intr d = (d, .goto .finished) := by
      simp only [code]
      rw [show d.idequeue = none by rw [start, pending]; rfl]
    simp only [run, raise_same]
    exact ⟨ordered, rfl, begun⟩
  | cons b =>
    have run : code.run .intr d = (d.finish b, .wakeup (bufChan b) .next) := by
      simp only [code]
      rw [show d.idequeue = some b by rw [start, pending]; rfl]
    simp only [run]
    refine ⟨ordered.finish pending, ?_, ?_⟩
    · simp only [raise, nil_append, filter_eq_nil_iff, mem_filter]
      rintro _ ⟨member, raised⟩
      obtain ⟨b', -, rfl⟩ := List.mem_map.mp member
      by_cases same : b' = b
      · simp [same]
      · simp [Driver.synced_finish_of_ne same] at raised
    · simpa [Driver.Begun, pending, Driver.finish] using begun

theorem outline_next (good : outline.good old d owed .next) : outline.Correct code ready killed old d owed .next := by
  obtain ⟨ordered, rfl, begun⟩ := good
  have start := ordered.linked.start_eq
  unfold Outline.Correct
  cases pending : d.pending with
  | nil =>
    have run : code.run .next d = (d, .goto .finished) := by
      simp only [code]
      rw [show d.idequeue = none by rw [start, pending]; rfl]
    simp only [run, raise_same]
    exact ⟨ordered, rfl, by simpa [Driver.Begun, pending] using begun⟩
  | cons b rest =>
    have run : code.run .next d = (d.idestart b, .goto .finished) := by
      simp only [code]
      rw [show d.idequeue = some b by rw [start, pending]; rfl]
    simp only [run]
    refine ⟨⟨ordered.linked, ordered.nodup, ordered.order, ordered.unsynced⟩, raise_eq fun _ => id, ?_⟩
    have kept : (d.idestart b).pending = b :: rest := pending
    have started : d.started = d.completed := begun
    rw [Driver.Begun, kept, show (d.idestart b).started = d.started ++ [b] from rfl, started]
    rfl

theorem outline_correct {k : Point} (good : outline.good old d owed k) : outline.Correct code ready killed old d owed k := by
  cases k with
  | append b valid dirty =>
    obtain ⟨ordered, rfl, begun, fresh, useful⟩ := good
    have unsynced : (d.prepare b valid dirty).synced b = false := by simpa [Driver.synced, Driver.prepare] using useful
    refine ⟨ordered.prepare fresh, raise_eq fun b' => ?_, begun, fresh, by simp [code, Driver.prepare], unsynced, [], _,
      rfl, rfl⟩
    by_cases same : b' = b
    · subst same
      simp [code, unsynced]
    · simp [code, Driver.synced_prepare_of_ne same]
  | walk => exact outline_walk good
  | begin => exact outline_begin good
  | wait b =>
    obtain ⟨ordered, rfl, begun, _⟩ := good
    unfold Outline.Correct
    by_cases synced : d.synced b = true
    · have run : code.run (.wait b) d = (d, .goto (.done b)) := if_pos synced
      simp only [run, raise_same]
      exact ⟨ordered, rfl, begun, synced⟩
    · have run : code.run (.wait b) d = (d, .sleep (bufChan b) (.wait b)) := if_neg synced
      simp only [run, raise_same]
      exact ⟨by simpa using synced, trivial, ⟨ordered, begun⟩, trivial, b, rfl, rfl⟩
  | done =>
    obtain ⟨ordered, rfl, begun, -⟩ := good
    exact ⟨raise_same, ordered, begun⟩
  | intr => exact outline_intr good
  | next => exact outline_next good
  | finished =>
    obtain ⟨ordered, rfl, begun⟩ := good
    exact ⟨raise_same, ordered, begun⟩

end

section

variable {s next : State Driver Point} {event : Event Point} {old : Driver} {owed : List Chan}

def buffer (s : State Driver Point) (t : Thread) : Option Index := (s.pc t).point.bind Point.buffer

/-- Whose the buffers are: each is used by one process, and those in the queue are waited for. -/
structure Claimed (s : State Driver Point) : Prop where
  distinct : ∀ p q b, buffer s (.proc p) = some b → buffer s (.proc q) = some b → p = q
  handlers : ∀ n, buffer s (.handler n) = none
  waiters : ∀ b ∈ s.data.pending, ∃ p, (s.pc (.proc p)).point = some (.begin b) ∨ (s.pc (.proc p)).point = some (.wait b)
  waiting : ∀ p b, (s.pc (.proc p)).point = some (.wait b) → b ∈ s.data.pending ∨ s.data.synced b = true

theorem target_buffer (killed : Bool) (d : Driver) (k : Point) : ((code.run k d).2.target killed).bind Point.buffer = k.buffer ∨
    ((code.run k d).2.target killed).bind Point.buffer = none := by
  cases k with
  | append | begin => exact .inl rfl
  | done | finished => exact .inr rfl
  | walk | wait =>
    refine .inl ?_
    simp only [code]
    split <;> rfl
  | intr | next =>
    refine .inr ?_
    simp only [code]
    split <;> rfl

theorem buffer_moved (moved : Moved code s event next) (t : Thread) :
    buffer next t = buffer s t ∨ buffer next t = none ∨ ∃ k, event = .start t k ∧ buffer next t = k.buffer := by
  cases moved.advanced t with
  | kept point => exact .inl (by rw [buffer, point, buffer])
  | started k acts _ point => exact .inr (.inr ⟨k, acts, by rw [buffer, point]; rfl⟩)
  | ran k _ here point =>
    rcases target_buffer (s.killed t) s.data k with same | none
    · refine .inl ?_
      rw [buffer, point, same, buffer, here]
      rfl
    · exact .inr (.inl (by rw [buffer, point, none]))

theorem Claimed.distinct_step (claimed : Claimed s) (moved : Moved code s event next) (distinct : Distinct s event next)
    (p q : Slot) (b : Index) (first : buffer next (.proc p) = some b) (second : buffer next (.proc q) = some b) : p = q := by
  -- A buffer that a process has after the step it had before, or nobody had.
  have before (p : Slot) (has : buffer next (.proc p) = some b) :
      buffer s (.proc p) = some b ∨ (∃ k, event = .start (.proc p) k) ∧ ∀ q, buffer s (.proc q) ≠ some b := by
    rcases buffer_moved moved (.proc p) with same | none | ⟨k, rfl, new⟩
    · exact .inl (same ▸ has)
    · simp [none] at has
    · exact .inr ⟨⟨k, rfl⟩, distinct b (new ▸ has)⟩
  rcases before p first with mine | ⟨⟨k, acts⟩, fresh⟩ <;> rcases before q second with other | ⟨⟨k', acts'⟩, fresh'⟩
  · exact claimed.distinct p q b mine other
  · exact absurd mine (fresh' p)
  · exact absurd other (fresh q)
  · rw [acts, Event.start.injEq, Thread.proc.injEq] at acts'
    exact acts'.1

theorem Claimed.idle (claimed : Claimed s) (moved : Moved code s event next)
    (idle : ∀ t k, event = .step t → s.pc t ≠ .inside k) :
    (∀ b ∈ next.data.pending, ∃ p, (next.pc (.proc p)).point = some (.begin b) ∨ (next.pc (.proc p)).point = some (.wait b)) ∧
    ∀ p b, (next.pc (.proc p)).point = some (.wait b) → b ∈ next.data.pending ∨ next.data.synced b = true := by
  have data : next.data = s.data := by
    rcases moved.data with same | ⟨t, k, acts, here⟩
    · exact same
    · exact absurd here (idle t k acts)
  rw [data]
  refine ⟨fun b member => ?_, fun p b waits => ?_⟩
  · obtain ⟨p, waits⟩ := claimed.waiters b member
    refine ⟨p, ?_⟩
    cases moved.advanced (.proc p) with
    | kept point => rwa [point]
    | started _ _ here => simp [here, Pc.point] at waits
    | ran k acts here => exact absurd here (idle _ k acts)
  · cases moved.advanced (.proc p) with
    | kept point => exact claimed.waiting p b (point ▸ waits)
    | started _ acts _ point =>
      subst acts
      rw [point, some.injEq] at waits
      subst waits
      cases moved
      contradiction
    | ran k acts here => exact absurd here (idle _ k acts)

/-- Thread `t` ran the point `k`, and the others stay where they are. -/
structure Ran (s next : State Driver Point) (t : Thread) (k : Point) : Prop where
  here : (s.pc t).point = some k
  others : ∀ q, .proc q ≠ t → (next.pc (.proc q)).point = (s.pc (.proc q)).point
  data : next.data = (code.run k s.data).1
  point : (next.pc t).point = (code.run k s.data).2.target (s.killed t)

theorem ran_of_moved {t : Thread} {k : Point} (moved : Moved code s (.step t) next) (here : s.pc t = .inside k) :
    Ran s next t k := by
  have others (q : Slot) (other : .proc q ≠ t) : (next.pc (.proc q)).point = (s.pc (.proc q)).point := by
    rw [moved.pc_frame]
    simpa [Event.actor] using Ne.symm other
  cases moved.advanced t with
  | kept _ idle => exact absurd here (idle rfl k)
  | started => contradiction
  | ran _ _ here' point data =>
    rw [here, Pc.inside.injEq] at here'
    subst here'
    exact ⟨by rw [here]; rfl, others, data, point⟩

/-- Those who wait for the buffers of the queue. -/
def Waiters (s : State Driver Point) : Prop :=
  (∀ b ∈ s.data.pending, ∃ p, (s.pc (.proc p)).point = some (.begin b) ∨ (s.pc (.proc p)).point = some (.wait b)) ∧
    ∀ p b, (s.pc (.proc p)).point = some (.wait b) → b ∈ s.data.pending ∨ s.data.synced b = true

section

variable {t : Thread} {k : Point} {b : Index}

theorem Ran.waiters (ran : Ran s next t k) (claimed : Claimed s)
    (fewer : ∀ b ∈ next.data.pending, b ∈ s.data.pending ∨ (next.pc t).point = some (.begin b) ∧ ∃ p, t = .proc p)
    (stays : ∀ b ∈ next.data.pending, k = .begin b ∨ k = .wait b → (next.pc t).point = some (.wait b))
    (kept : ∀ q b, .proc q ≠ t → buffer s (.proc q) = some b → b ∈ s.data.pending ∨ s.data.synced b = true →
      b ∈ next.data.pending ∨ next.data.synced b = true)
    (mine : ∀ b, (next.pc t).point = some (.wait b) → b ∈ next.data.pending ∨ next.data.synced b = true) : Waiters next := by
  refine ⟨fun b member => ?_, fun q b waits => ?_⟩
  · rcases fewer b member with before | ⟨begins, p, rfl⟩
    · obtain ⟨p, waits⟩ := claimed.waiters b before
      by_cases same : .proc p = t
      · subst same
        rw [ran.here, some.injEq, some.injEq] at waits
        exact ⟨p, .inr (stays b member waits)⟩
      · exact ⟨p, by rwa [ran.others p same]⟩
    · exact ⟨p, .inl begins⟩
  · by_cases same : .proc q = t
    · subst same
      exact mine b waits
    · rw [ran.others q same] at waits
      exact kept q b same (by rw [buffer, waits]; rfl) (claimed.waiting q b waits)

theorem Ran.waiters_of_same (ran : Ran s next t k) (claimed : Claimed s) (pending : next.data.pending = s.data.pending)
    (synced : ∀ b, next.data.synced b = s.data.synced b)
    (stays : ∀ b ∈ s.data.pending, k = .begin b ∨ k = .wait b → (next.pc t).point = some (.wait b))
    (mine : ∀ b, (next.pc t).point = some (.wait b) → b ∈ s.data.pending ∨ s.data.synced b = true) : Waiters next := by
  refine ran.waiters claimed (fun b member => .inl (pending ▸ member)) (fun b member => stays b (pending ▸ member))
    (fun q b _ _ before => ?_) fun b waits => ?_
  · rwa [pending, synced]
  · rw [pending, synced]
    exact mine b waits

theorem Claimed.alone (claimed : Claimed s) (here : (s.pc t).point = some k) (uses : k.buffer = some b) :
    (∃ p, t = .proc p) ∧ ∀ q, .proc q ≠ t → buffer s (.proc q) ≠ some b := by
  have mine : buffer s t = some b := by rw [buffer, here]; exact uses
  cases t with
  | handler n => simp [claimed.handlers n] at mine
  | proc p =>
    refine ⟨⟨p, rfl⟩, fun q other his => other ?_⟩
    rw [claimed.distinct q p b his mine]

theorem Claimed.run (claimed : Claimed s) (ran : Ran s next t k) (good : outline.good old s.data owed k) : Waiters next := by
  obtain ⟨ordered, -, good⟩ := good
  have data := ran.data
  have point := ran.point
  cases k with
  | append b =>
    obtain ⟨-, alone⟩ := claimed.alone ran.here (b := b) rfl
    have target : (next.pc t).point = some (.walk b none) := point
    have pending : next.data.pending = s.data.pending := by rw [data]; rfl
    refine ran.waiters claimed (fun b' member => .inl (pending ▸ member)) (by simp) (fun q b' other has => ?_) (by simp [target])
    have apart : b' ≠ b := fun same => alone q other (same ▸ has)
    rw [pending, data]
    simp [code, Driver.synced_prepare_of_ne apart]
  | walk b pp =>
    obtain ⟨process, -⟩ := claimed.alone ran.here (b := b) rfl
    cases found : link s.data.qnext s.data.idequeue pp with
    | some =>
      simp only [code, found] at data point
      rw [Move.target] at point
      exact ran.waiters_of_same claimed (by rw [data]) (by simp [data]) (by simp) (by simp [point])
    | none =>
      simp only [code, found] at data point
      rw [Move.target] at point
      have pending : next.data.pending = s.data.pending ++ [b] := by rw [data, ordered.pending_store]
      refine ran.waiters claimed (fun b' member => ?_) (by simp) (fun q b' other has before => ?_) (by simp [point])
      · rw [pending, mem_append, mem_singleton] at member
        rcases member with member | rfl
        · exact .inl member
        · exact .inr ⟨point, process⟩
      · rw [data, Driver.synced_store, ordered.pending_store]
        rcases before with member | synced
        · exact .inl (mem_append_left _ member)
        · exact .inr synced
  | begin b =>
    obtain ⟨_, split, -⟩ := good
    have pending : next.data.pending = s.data.pending := by
      rw [data]
      simp only [code]
      split <;> rfl
    have synced (b' : Index) : next.data.synced b' = s.data.synced b' := by
      rw [data]
      simp only [code]
      split <;> rfl
    have target : (next.pc t).point = some (.wait b) := point
    refine ran.waiters_of_same claimed pending synced (fun b' _ same => ?_) fun b' waits => ?_
    · rcases same with same | same
      · rw [target, Point.begin.inj same]
      · contradiction
    · rw [target, some.injEq, Point.wait.injEq] at waits
      subst waits
      exact .inl (by simp [split])
  | wait b =>
    by_cases synced : s.data.synced b = true
    · have run : code.run (.wait b) s.data = (s.data, .goto (.done b)) := if_pos synced
      rw [run] at data point
      refine ran.waiters_of_same claimed (by rw [data]) (by simp [data]) (fun b' member same => ?_) (by simp [point, Move.target])
      rcases same with same | same
      · contradiction
      · rw [Point.wait.inj same, ordered.unsynced b' member] at synced
        contradiction
    · have run : code.run (.wait b) s.data = (s.data, .sleep (bufChan b) (.wait b)) := if_neg synced
      rw [run] at data point
      refine ran.waiters_of_same claimed (by rw [data]) (by simp [data]) (fun b' member same => ?_) fun b' waits => ?_
      · rcases same with same | same
        · contradiction
        · rw [point, Point.wait.inj same]
          rfl
      · rw [point, Move.target, some.injEq, Point.wait.injEq] at waits
        subst waits
        exact good.2
  | done | finished =>
    have same : next.data = s.data := data
    have target : (next.pc t).point = none := point
    exact ran.waiters_of_same claimed (by rw [same]) (by simp [same]) (by simp) (by simp [target])
  | next =>
    cases head : s.data.idequeue with
    | none =>
      simp only [code, head] at data point
      exact ran.waiters_of_same claimed (by rw [data]) (by simp [data]) (by simp) (by simp [point, Move.target])
    | some =>
      simp only [code, head] at data point
      exact ran.waiters_of_same claimed (by rw [data]; rfl) (fun _ => by rw [data]; rfl) (by simp) (by simp [point, Move.target])
  | intr =>
    have start := ordered.linked.start_eq
    cases pending : s.data.pending with
    | nil =>
      rw [pending] at start
      simp only [code, show s.data.idequeue = none from start] at data point
      exact ran.waiters_of_same claimed (by rw [data]) (by simp [data]) (by simp) (by simp [point, Move.target])
    | cons b rest =>
      rw [pending] at start
      simp only [code, show s.data.idequeue = some b from start] at data point
      have left : next.data.pending = rest := by rw [data, ordered.pending_finish pending]
      refine ran.waiters claimed (fun b' member => .inl ?_) (by simp) (fun q b' _ _ before => ?_) (by simp [point, Move.target])
      · rw [left] at member
        simp [pending, member]
      · rw [left, data]
        by_cases same : b' = b
        · subst same
          exact .inr (by simp [Driver.synced, Driver.finish])
        · rw [Driver.synced_finish_of_ne same]
          simpa [pending, same] using before

end

theorem Claimed.step (claimed : Claimed s) (follows : outline.Follows code ready s old owed) (moved : Moved code s event next)
    (distinct : Distinct s event next) : Claimed next := by
  have waiters : Waiters next := by
    by_cases runs : ∃ t k, event = .step t ∧ s.pc t = .inside k
    · obtain ⟨t, k, rfl, here⟩ := runs
      have good := follows.holds t
      rw [here] at good
      exact claimed.run (ran_of_moved moved here) good
    · exact claimed.idle moved fun t k acts here => runs ⟨t, k, acts, here⟩
  refine ⟨claimed.distinct_step moved distinct, fun n => ?_, waiters.1, waiters.2⟩
  rcases buffer_moved moved (.handler n) with same | none | ⟨k, rfl, new⟩
  · rw [same, claimed.handlers]
  · exact none
  · rw [new]
    exact distinct

theorem Claimed.enter (claimed : Claimed s) {t : Thread} {k : Point} (here : s.pc t = .acquire k ∨ s.pc t = .reacquire k)
    (free : outline.free s.data) (back : outline.back k) : outline.good s.data s.data [] k := by
  have point : (s.pc t).point = some k := by rcases here with here | here <;> rw [here] <;> rfl
  cases k with
  | append b =>
    refine ⟨free.1, rfl, free.2, fun member => ?_, back⟩
    obtain ⟨p, waits⟩ := claimed.waiters b member
    obtain ⟨-, alone⟩ := claimed.alone point (b := b) rfl
    by_cases same : .proc p = t
    · rw [same, point] at waits
      simp at waits
    · refine alone p same ?_
      rcases waits with waits | waits <;> rw [buffer, waits] <;> rfl
  | wait b =>
    refine ⟨free.1, rfl, free.2, ?_⟩
    obtain ⟨⟨p, rfl⟩, -⟩ := claimed.alone point (b := b) rfl
    exact claimed.waiting p b point
  | intr => exact ⟨free.1, rfl, free.2⟩
  | walk | begin | done | next | finished => exact back.elim

theorem ordered_of_follows (follows : outline.Follows code ready s old owed) : s.data.Ordered := by
  cases held : s.locks code.lk with
  | none => exact (follows.free held).1
  | some t =>
    have holds := (follows.awaited.locked.held code.lk t).mp held
    have here := follows.holds t
    cases pc : s.pc t with
    | inside | wakeUnlock | wakeLock | wake | leaving =>
      rw [pc] at here
      exact here.1
    | sleepLock | sleepUnlock =>
      rw [pc] at here
      exact here.1.1
    | _ => simp [pc, Pc.holds, code] at holds

theorem completes (follows : outline.Follows code ready s old owed) (moved : Moved code s event next) :
    Completes s event next := by
  rintro t b rest rfl here pending
  have ordered := ordered_of_follows follows
  have start : s.data.idequeue = some b := by
    rw [ordered.linked.start_eq, pending]
    rfl
  have data := (ran_of_moved moved here).data
  simp only [code, start] at data
  rw [data, ordered.pending_finish pending]
  exact ⟨rfl, rfl, by simp [Driver.finish], by simp [Driver.finish]⟩

theorem Claimed.served (claimed : Claimed s) (follows : outline.Follows code ready s old owed) : Served s := by
  have ordered := ordered_of_follows follows
  refine ⟨⟨ordered.linked, ordered.nodup⟩, ordered.order, fun free => (follows.free free).2, fun t b here => ?_,
    fun free p b asleep on => ?_⟩
  · have good := follows.holds t
    rw [here] at good
    obtain ⟨-, -, -, synced⟩ := good
    have flags : s.data.valid b = true ∧ s.data.dirty b = false := by simpa [Driver.synced] using synced
    refine ⟨flags.1, flags.2, fun member => ?_⟩
    rw [ordered.unsynced b member] at synced
    contradiction
  · have mine : bufChan b ∈ code.channels := List.mem_map.mpr ⟨b, mem_finRange b, rfl⟩
    have unsynced : s.data.synced b = false := by
      simpa using follows.awaited.safe.awake free p asleep (bufChan b) mine on
    have dozes := follows.awaited.locked.mine p asleep (bufChan b) mine on
    have holds := follows.holds (.proc p)
    -- The process sleeps in the loop of iderw for this buffer.
    have point : (s.pc (.proc p)).point = some (.wait b) := by
      cases pc : s.pc (.proc p) with
      | switched | asleep =>
        rw [pc] at dozes holds
        obtain ⟨-, b', same, rfl⟩ := holds
        rw [Pc.dozes, some.injEq, same, bufChan_inj] at dozes
        rw [dozes]
        rfl
      | _ => simp [pc, Pc.dozes] at dozes
    rcases claimed.waiting p b point with member | synced
    · exact member
    · rw [unsynced] at synced
      contradiction

end

/-- Every run of iderw calls on distinct buffers and of interrupts, from an empty queue. -/
theorem disk_queue_served (d : Driver) (empty : d.idequeue = none)
    (fresh : d.submitted = [] ∧ d.started = [] ∧ d.completed = [])
    (table : Table) (quiet : ∀ p, (table p).state = .sleeping → ∀ chan ∈ code.channels, (table p).chan ≠ some chan)
    (events : List (Sync.Event Point)) (distinct : EveryStep code.step Distinct { proc := table, data := d } events) :
    EveryStep code.step (fun before event after => Served after ∧ Completes before event after)
      { proc := table, data := d } events := by
  have pending : d.pending = [] := by simp [Driver.pending, fresh.1]
  have start : outline.free d := by
    refine ⟨⟨?_, ?_, ?_, ?_⟩, ?_⟩
    · rw [pending]
      exact empty
    · simp [pending]
    · simp [pending, fresh]
    · simp [pending]
    · simp [Driver.Begun, pending, fresh]
  refine (runs_along (fun s : State Driver Point => Claimed s ∧ ∃ old owed, outline.Follows code ready s old owed)
    ⟨?_, d, [], .start table d start quiet⟩ distinct (fun before event after sound distinct stepped => ?_)).1
  · refine ⟨fun p q b has => ?_, fun n => rfl, fun b member => ?_, fun p b waits => ?_⟩
    · simp [buffer, Pc.point] at has
    · simp [pending] at member
    · simp [Pc.point] at waits
  · obtain ⟨claimed, old, owed, follows⟩ := sound
    have moved := step_moved stepped
    have claimed' := claimed.step follows moved distinct
    have follows' := follows.step outline_sound moved
      ⟨fun t k _ here free back => claimed.enter here free back, fun t k _ _ good => outline_correct good⟩
    exact ⟨⟨claimed', _, _, follows'⟩, claimed'.served follows', completes follows moved⟩

/-- Two processes submit a buffer each; the second waits behind the first. -/
def twoRequests : List (Sync.Event Point) :=
  .start (.proc 0) (.append 3 false false) :: List.replicate 8 (.step (.proc 0)) ++ [.retire 0] ++
    .start (.proc 1) (.append 4 true true) :: List.replicate 6 (.step (.proc 1)) ++
    .start (.handler 0) .intr :: List.replicate 3 (.step (.proc 1)) ++ [.retire 1] ++ List.replicate 8 (.step (.handler 0))

theorem disk_queue_served_twoRequests : let table : Table := fun p => if p = 0 ∨ p = 1 then { state := .running } else {}
    (run code.step { proc := table, data := {} } twoRequests).map
        (fun s => (s.locks .other, (s.proc 0).state, (s.proc 1).state, s.data.pending, s.data.started)) =
        some (none, .runnable, .sleeping, [4], [3, 4]) ∧
      EveryStep code.step (fun before event after => Served after ∧ Completes before event after)
        { proc := table, data := {} } twoRequests :=
  ⟨by decide +kernel, disk_queue_served {} rfl ⟨rfl, rfl, rfl⟩ _ (by decide +kernel) _ (by decide +kernel)⟩

end Xv6.Ide
