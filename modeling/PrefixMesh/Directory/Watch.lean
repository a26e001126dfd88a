import PrefixMesh.Directory.StateMachine
import PrefixMesh.Lib.Runs

/-! `WatchRing` streams. A stream is known by its signal channel, which holds at most one
signal. `Apply` changes the state and snapshots the watchers in one step under the lock,
and sends the signals afterwards, one by one; any number of calls may be doing that at a
time. Everything else a stream does takes several steps as well. -/

namespace PrefixMesh.Directory

open Lib

inductive Phase where
  | idle
  | reading
  | holding (ring : Ring)
  | waiting
  | leaving
  | ended
  deriving DecidableEq

structure Stream where
  phase : Phase
  lastSent : Nat
  sent : List Ring
  signal : Bool

/-- `applies` has for each `Apply` the channels that it has still to signal. -/
structure Watch (C : Type) where
  sm : StateMachine
  watch : List C
  applies : List (List C)
  streams : C → Stream

inductive WatchAction (C : Type) where
  | apply (raw : Bytes) (watchers : List C)
  | signal (k : Nat)
  | subscribe (c : C)
  | read (c : C) (ring : Ring)
  | send (c : C) (ok : Bool)
  | receive (c : C)
  | done (c : C)
  | unsubscribe (c : C)
  deriving DecidableEq

def Watch.start (C : Type) : Watch C := ⟨newStateMachine, [], [], fun _ => ⟨.idle, 0, [], false⟩⟩

instance (sm : StateMachine) (ring : Ring) : Decidable (sm.IsRing ring) :=
  decidable_of_iff (ring.epoch = sm.epoch ∧
      (ring.nodes : Multiset NodeInfo) = sm.members.entries.map (fun entry => entry.2) ∧ ring.vnodesPerNode = 128)
    ⟨fun ⟨epoch, nodes, vnodes⟩ => ⟨epoch, nodes, vnodes⟩, fun shown => ⟨shown.epoch, shown.nodes, shown.vnodes⟩⟩

/-- `changed` of `Apply`. -/
def StateMachine.changes (pb : Protobuf) (raw : Bytes) (sm : StateMachine) : Bool :=
  ((pb.unmarshal raw).bind sm.changed).isSome

/-- `send`, once it has the ring: nothing is sent if the ring is the last one, and an error of the stream ends
the call. -/
def Stream.send (st : Stream) (ring : Ring) (ok : Bool) : Stream :=
  if ring.epoch = st.lastSent ∧ st.lastSent ≠ 0 then { st with phase := .waiting }
  else if ok then { st with phase := .waiting, lastSent := ring.epoch, sent := st.sent ++ [ring] }
  else { st with phase := .leaving, lastSent := ring.epoch }

variable {C : Type} [DecidableEq C]

def Watch.set (s : Watch C) (c : C) (st : Stream) : Watch C := { s with streams := Function.update s.streams c st }

/-- The watchers of an `Apply` come in the order of a map iteration. -/
def Watch.step (pb : Protobuf) (s : Watch C) : WatchAction C → Option (Watch C)
  | .apply raw watchers =>
      if watchers.Perm s.watch then
        if s.sm.changes pb raw then
          some { s with sm := s.sm.apply pb raw, applies := s.applies ++ [watchers] }
        else some { s with sm := s.sm.apply pb raw }
      else none
  | .signal k =>
      match s.applies[k]? with
      | some (c :: rest) =>
          some ({ s with applies := s.applies.set k rest }.set c { s.streams c with signal := true })
      | _ => none
  | .subscribe c =>
      if (s.streams c).phase = .idle then
        some ({ s with watch := s.watch ++ [c] }.set c { s.streams c with phase := .reading })
      else none
  | .read c ring =>
      if (s.streams c).phase = .reading ∧ s.sm.IsRing ring then
        some (s.set c { s.streams c with phase := .holding ring })
      else none
  | .send c ok =>
      match (s.streams c).phase with
      | .holding ring => some (s.set c ((s.streams c).send ring ok))
      | _ => none
  | .receive c =>
      if (s.streams c).phase = .waiting ∧ (s.streams c).signal = true then
        some (s.set c { s.streams c with phase := .reading, signal := false })
      else none
  | .done c =>
      if (s.streams c).phase = .waiting then some (s.set c { s.streams c with phase := .leaving }) else none
  | .unsubscribe c =>
      if (s.streams c).phase = .leaving then
        some ({ s with watch := s.watch.erase c }.set c { s.streams c with phase := .ended })
      else none

/-- Between the call of `Subscribe` and the return of the handler. -/
def Phase.running : Phase → Prop
  | .reading | .holding _ | .waiting => True
  | _ => False

/-- A ring is as good as a look at the state machine as long as the epoch has not moved on. -/
structure Seen (sm : StateMachine) (ring : Ring) : Prop where
  past : ring.epoch ≤ sm.epoch
  current : ring.epoch = sm.epoch → sm.IsRing ring

/-- What holds of a stream. `watched` tells whether its channel is in the set of watchers, `announced` whether an
`Apply` has still to signal it. -/
structure Stream.Inv (sm : StateMachine) (watched announced : Prop) (st : Stream) : Prop where
  signal : st.signal = true → 1 ≤ sm.epoch
  watched : st.phase.running → watched
  increasing : (st.sent.map fun ring => ring.epoch).Pairwise (· < ·)
  seen : ∀ ring ∈ st.sent, Seen sm ring
  last : st.phase.running → st.lastSent = (st.sent.getLast?.map fun ring => ring.epoch).getD 0
  idle : st.phase = .idle → st.lastSent = 0 ∧ st.sent = []
  reading : st.phase = .reading → st.sent ≠ [] → 1 ≤ sm.epoch
  holding : ∀ ring, st.phase = .holding ring → Seen sm ring ∧ st.lastSent ≤ ring.epoch ∧
    (st.sent ≠ [] → 1 ≤ ring.epoch) ∧ (ring.epoch = sm.epoch ∨ st.signal = true ∨ announced)
  waiting : st.phase = .waiting → st.sent ≠ [] ∧ (st.lastSent = sm.epoch ∨ st.signal = true ∨ announced)

theorem Stream.Inv.mono {sm : StateMachine} {watched watched' announced announced' : Prop} {st : Stream}
    (inv : st.Inv sm watched announced) (still : st.phase.running → watched → watched')
    (more : announced → announced') :
    st.Inv sm watched' announced' := by
  refine { inv with watched := ?_, holding := ?_, waiting := ?_ }
  · exact fun running => still running (inv.watched running)
  · intro ring here
    obtain ⟨seen, later, first, informed⟩ := inv.holding ring here
    exact ⟨seen, later, first, informed.imp_right (Or.imp_right more)⟩
  · intro here
    obtain ⟨nonempty, informed⟩ := inv.waiting here
    exact ⟨nonempty, informed.imp_right (Or.imp_right more)⟩

theorem Stream.Inv.changed {sm sm' : StateMachine} {watched announced : Prop} {st : Stream}
    (inv : st.Inv sm watched announced) (next : sm'.epoch = sm.epoch + 1) :
    st.Inv sm' watched (announced ∨ watched) := by
  have seen : ∀ ring, Seen sm ring → Seen sm' ring := by
    intro ring before
    have past := before.past
    exact ⟨by omega, fun same => by omega⟩
  refine { inv with signal := ?_, seen := ?_, reading := ?_, holding := ?_, waiting := ?_ }
  · exact fun _ => by omega
  · exact fun ring member => seen ring (inv.seen ring member)
  · exact fun _ _ => by omega
  · intro ring here
    obtain ⟨before, later, first, _⟩ := inv.holding ring here
    have running : st.phase.running := by rw [here]; trivial
    exact ⟨seen ring before, later, first, Or.inr (Or.inr (Or.inr (inv.watched running)))⟩
  · intro here
    have running : st.phase.running := by rw [here]; trivial
    exact ⟨(inv.waiting here).1, Or.inr (Or.inr (Or.inr (inv.watched running)))⟩

theorem Stream.Inv.signalled {sm : StateMachine} {watched announced announced' : Prop} {st : Stream}
    (inv : st.Inv sm watched announced) (later : 1 ≤ sm.epoch) :
    { st with signal := true }.Inv sm watched announced' := by
  refine { inv with signal := fun _ => later, holding := ?_, waiting := ?_ }
  · intro ring here
    obtain ⟨seen, after, first, _⟩ := inv.holding ring here
    exact ⟨seen, after, first, Or.inr (Or.inl rfl)⟩
  · intro here
    exact ⟨(inv.waiting here).1, Or.inr (Or.inl rfl)⟩

theorem Stream.Inv.subscribed {sm : StateMachine} {watched watched' announced : Prop} {st : Stream}
    (inv : st.Inv sm watched announced) (fresh : st.phase = .idle) (now : watched') :
    { st with phase := .reading }.Inv sm watched' announced := by
  obtain ⟨zero, empty⟩ := inv.idle fresh
  refine { inv with watched := fun _ => now, last := ?_, idle := ?_, reading := ?_, holding := ?_, waiting := ?_ }
  · intro _
    simp only [zero, empty]
    rfl
  · exact fun here => by cases here
  · exact fun _ nonempty => absurd empty nonempty
  · exact fun ring here => by cases here
  · exact fun here => by cases here

theorem Stream.Inv.read {sm : StateMachine} {watched announced : Prop} {st : Stream} (inv : st.Inv sm watched announced)
    (here : st.phase = .reading) (ring : Ring) (shown : sm.IsRing ring) :
    { st with phase := .holding ring }.Inv sm watched announced := by
  have running : st.phase.running := by rw [here]; trivial
  have last := inv.last running
  have later : st.lastSent ≤ sm.epoch := by
    rw [last]
    cases top : st.sent.getLast? with
    | none => exact Nat.zero_le _
    | some earlier => exact (inv.seen earlier (List.mem_of_getLast? top)).past
  refine { inv with watched := ?_, last := fun _ => last, idle := ?_, reading := ?_, holding := ?_, waiting := ?_ }
  · exact fun _ => inv.watched running
  · exact fun other => by cases other
  · exact fun other => by cases other
  · intro held same
    obtain rfl : ring = held := by injection same
    exact ⟨⟨shown.epoch.le, fun _ => shown⟩, shown.epoch ▸ later,
      fun nonempty => shown.epoch ▸ inv.reading here nonempty, Or.inl shown.epoch⟩
  · exact fun other => by cases other

/-- A signal is taken out of the channel before the ring is read, so the read sees what the signal was for. -/
theorem Stream.Inv.received {sm : StateMachine} {watched announced : Prop} {st : Stream}
    (inv : st.Inv sm watched announced) (here : st.phase = .waiting) (full : st.signal = true) :
    { st with phase := .reading, signal := false }.Inv sm watched announced := by
  have running : st.phase.running := by rw [here]; trivial
  exact { inv with
    signal := fun other => by cases other
    watched := fun _ => inv.watched running
    last := fun _ => inv.last running
    idle := fun other => by cases other
    reading := fun _ _ => inv.signal full
    holding := fun _ other => by cases other
    waiting := fun other => by cases other }

theorem Stream.Inv.left {sm : StateMachine} {watched announced watched' announced' : Prop} {st st' : Stream}
    (inv : st.Inv sm watched announced) (gone : st'.phase = .leaving ∨ st'.phase = .ended) (sent : st'.sent = st.sent)
    (signal : st'.signal = st.signal) : st'.Inv sm watched' announced' := by
  have still : ¬st'.phase.running := by
    rcases gone with here | here
    · rw [here]; exact id
    · rw [here]; exact id
  refine {
    signal := fun full => inv.signal (signal ▸ full)
    watched := fun running => absurd running still
    increasing := sent ▸ inv.increasing
    seen := sent ▸ inv.seen
    last := fun running => absurd running still
    idle := ?_
    reading := fun here => absurd (by rw [here]; trivial) still
    holding := fun ring here => absurd (by rw [here]; trivial) still
    waiting := fun here => absurd (by rw [here]; trivial) still }
  intro here
  rcases gone with other | other
  · rw [here] at other; cases other
  · rw [here] at other; cases other

theorem Stream.Inv.sent_le {sm : StateMachine} {watched announced : Prop} {st : Stream}
    (inv : st.Inv sm watched announced) (running : st.phase.running) (earlier : Ring) (member : earlier ∈ st.sent) :
    earlier.epoch ≤ st.lastSent := by
  rw [inv.last running]
  cases top : st.sent.getLast? with
  | none =>
    rw [List.getLast?_eq_none_iff.mp top] at member
    cases member
  | some newest =>
    obtain ⟨before, split⟩ := List.getLast?_eq_some_iff.mp top
    have increasing := inv.increasing
    rw [split, List.map_append, List.pairwise_append] at increasing
    rw [split] at member
    change earlier.epoch ≤ newest.epoch
    rcases List.mem_append.mp member with old | new
    · exact (increasing.2.2 _ (List.mem_map_of_mem old) _ (List.mem_singleton_self _)).le
    · rw [List.mem_singleton.mp new]

theorem Stream.Inv.send {sm : StateMachine} {watched announced : Prop} {st : Stream} (inv : st.Inv sm watched announced)
    (ring : Ring) (here : st.phase = .holding ring) (ok : Bool) : (st.send ring ok).Inv sm watched announced := by
  have running : st.phase.running := by rw [here]; trivial
  have last := inv.last running
  obtain ⟨seen, later, first, informed⟩ := inv.holding ring here
  unfold Stream.send
  split
  next known =>
    -- the ring was the last one sent
    have nonempty : st.sent ≠ [] := by
      intro empty
      rw [empty] at last
      exact known.2 last
    refine { inv with
      watched := fun _ => inv.watched running
      last := fun _ => last
      idle := fun other => by cases other
      reading := fun other => by cases other
      holding := fun _ other => by cases other
      waiting := fun _ => ⟨nonempty, known.1 ▸ informed⟩ }
  next new =>
    split
    · refine { inv with
        watched := fun _ => inv.watched running
        increasing := ?_
        seen := ?_
        last := fun _ => by simp
        idle := fun other => by cases other
        reading := fun other => by cases other
        holding := fun _ other => by cases other
        waiting := fun _ => ⟨by simp, informed⟩ }
      · rw [List.map_append, List.pairwise_append]
        refine ⟨inv.increasing, List.pairwise_singleton _ _, ?_⟩
        intro a before b this
        obtain ⟨earlier, member, rfl⟩ := List.mem_map.mp before
        obtain rfl : b = ring.epoch := by simpa using this
        -- all epochs sent are at most `lastSent`, which is below the epoch of the ring
        have top : earlier.epoch ≤ st.lastSent := inv.sent_le running earlier member
        have more : st.lastSent < ring.epoch := by
          have nonempty := first (List.ne_nil_of_mem member)
          by_cases zero : st.lastSent = 0
          · omega
          · have apart : ring.epoch ≠ st.lastSent := fun same => new ⟨same, zero⟩
            omega
        omega
      · intro r member
        rcases List.mem_append.mp member with before | this
        · exact inv.seen r before
        · rw [List.mem_singleton.mp this]
          exact seen
    · exact inv.left (Or.inl rfl) rfl rfl

def Watch.Announced (s : Watch C) (c : C) : Prop := ∃ watchers ∈ s.applies, c ∈ watchers

structure Watch.Inv (s : Watch C) : Prop where
  applies : s.applies ≠ [] → 1 ≤ s.sm.epoch
  streams : ∀ c, (s.streams c).Inv s.sm (c ∈ s.watch) (s.Announced c)

omit [DecidableEq C] in
theorem Watch.inv_start : (Watch.start C).Inv := by
  refine ⟨fun some => absurd rfl some, fun c => ?_⟩
  exact {
    signal := fun full => by cases full
    watched := fun running => running.elim
    increasing := List.Pairwise.nil
    seen := fun _ member => by cases member
    last := fun running => running.elim
    idle := fun _ => ⟨rfl, rfl⟩
    reading := fun here => by cases here
    holding := fun _ here => by cases here
    waiting := fun here => by cases here }

theorem Watch.inv_set {s : Watch C} {c : C} {st : Stream} (applies : s.applies ≠ [] → 1 ≤ s.sm.epoch)
    (own : st.Inv s.sm (c ∈ s.watch) (s.Announced c))
    (others : ∀ d, d ≠ c → (s.streams d).Inv s.sm (d ∈ s.watch) (s.Announced d)) : (s.set c st).Inv := by
  refine ⟨applies, fun d => ?_⟩
  change (Function.update s.streams c st d).Inv s.sm (d ∈ s.watch) (s.Announced d)
  by_cases same : d = c
  · subst same
    rw [Function.update_self]
    exact own
  · rw [Function.update_of_ne same]
    exact others d same

theorem StateMachine.apply_changes (pb : Protobuf) (raw : Bytes) (sm : StateMachine) :
    if sm.changes pb raw then (sm.apply pb raw).epoch = sm.epoch + 1 else sm.apply pb raw = sm := by
  unfold StateMachine.changes StateMachine.apply StateMachine.applyCommand
  cases pb.unmarshal raw with
  | none => rfl
  | some cmd =>
    simp only [Option.bind_some]
    cases sm.changed cmd with
    | none => rfl
    | some members => rfl

omit [DecidableEq C] in
theorem announced_rest {applies : List (List C)} {k : Nat} {c d : C} {rest : List C}
    (head : applies[k]? = some (c :: rest)) (other : d ≠ c) (waits : ∃ watchers ∈ applies, d ∈ watchers) :
    ∃ watchers ∈ applies.set k rest, d ∈ watchers := by
  obtain ⟨watchers, member, listed⟩ := waits
  obtain ⟨j, place⟩ := List.mem_iff_getElem?.mp member
  have inside : k < applies.length := (List.getElem?_eq_some_iff.mp head).1
  by_cases same : k = j
  · subst same
    rw [head, Option.some.injEq] at place
    subst place
    rcases List.mem_cons.mp listed with first | later
    · exact absurd first other
    · exact ⟨rest, List.mem_set inside rest, later⟩
  · refine ⟨watchers, List.mem_iff_getElem?.mpr ⟨j, ?_⟩, listed⟩
    rw [List.getElem?_set_ne same]
    exact place

theorem Watch.Inv.step {pb : Protobuf} {s t : Watch C} (inv : s.Inv) (a : WatchAction C)
    (taken : s.step pb a = some t) : t.Inv := by
  cases a with
  | apply raw watchers =>
    simp only [Watch.step] at taken
    split at taken
    next all =>
      have effect := s.sm.apply_changes pb raw
      split at taken
      next changes =>
        rw [if_pos changes] at effect
        obtain rfl := Option.some.inj taken
        refine ⟨fun _ => by change 1 ≤ (s.sm.apply pb raw).epoch; omega, fun c => ?_⟩
        refine ((inv.streams c).changed effect).mono (fun _ => id) ?_
        rintro (⟨old, member, listed⟩ | watched)
        · exact ⟨old, List.mem_append_left _ member, listed⟩
        · exact ⟨watchers, List.mem_append_right _ (List.mem_singleton_self _), all.mem_iff.mpr watched⟩
      next unchanged =>
        rw [if_neg unchanged] at effect
        obtain rfl := Option.some.inj taken
        rw [effect]
        exact inv
    next => cases taken
  | signal k =>
    simp only [Watch.step] at taken
    split at taken
    next c rest head =>
      obtain rfl := Option.some.inj taken
      have nonempty : s.applies ≠ [] := by
        intro empty
        rw [empty] at head
        cases head
      have later := inv.applies nonempty
      refine Watch.inv_set (fun _ => later) ((inv.streams c).signalled later) fun d other => ?_
      exact (inv.streams d).mono (fun _ => id) (announced_rest head other)
    next => cases taken
  | subscribe c =>
    obtain ⟨fresh, same⟩ := Option.ite_none_right_eq_some.mp taken
    obtain rfl := Option.some.inj same
    refine Watch.inv_set inv.applies ((inv.streams c).subscribed fresh ?_) fun d _ => ?_
    · exact List.mem_append_right _ (List.mem_singleton_self _)
    · exact (inv.streams d).mono (fun _ => List.mem_append_left _) id
  | read c ring =>
    obtain ⟨⟨here, shown⟩, same⟩ := Option.ite_none_right_eq_some.mp taken
    obtain rfl := Option.some.inj same
    exact Watch.inv_set inv.applies ((inv.streams c).read here ring shown) fun d _ => inv.streams d
  | send c ok =>
    simp only [Watch.step] at taken
    split at taken
    next ring here =>
      obtain rfl := Option.some.inj taken
      exact Watch.inv_set inv.applies ((inv.streams c).send ring here ok) fun d _ => inv.streams d
    next => cases taken
  | receive c =>
    obtain ⟨⟨here, full⟩, same⟩ := Option.ite_none_right_eq_some.mp taken
    obtain rfl := Option.some.inj same
    exact Watch.inv_set inv.applies ((inv.streams c).received here full) fun d _ => inv.streams d
  | done c =>
    obtain ⟨_, same⟩ := Option.ite_none_right_eq_some.mp taken
    obtain rfl := Option.some.inj same
    exact Watch.inv_set inv.applies ((inv.streams c).left (Or.inl rfl) rfl rfl) fun d _ => inv.streams d
  | unsubscribe c =>
    obtain ⟨_, same⟩ := Option.ite_none_right_eq_some.mp taken
    obtain rfl := Option.some.inj same
    refine Watch.inv_set inv.applies ((inv.streams c).left (Or.inr rfl) rfl rfl) fun d other => ?_
    exact (inv.streams d).mono (fun _ => (List.mem_erase_of_ne other).mpr) id

def Watch.Reachable (pb : Protobuf) (s : Watch C) : Prop :=
  Reaches (Watch.step pb) (fun _ _ _ => True) (Watch.start C) s

theorem Watch.inv_reachable {pb : Protobuf} {s : Watch C} (run : s.Reachable pb) : s.Inv :=
  Reaches.invariant Watch.Inv run Watch.inv_start fun _ a _ inv taken _ => inv.step a taken

/-- What a transition adds to a stream: a ring is sent out of the hands of the stream, and gets there when the
stream reads the state machine. -/
structure Stream.Grows (sm : StateMachine) (st st' : Stream) : Prop where
  sent : st'.sent = st.sent ∨ ∃ ring, st.phase = .holding ring ∧ st'.sent = st.sent ++ [ring]
  holding : ∀ ring, st'.phase = .holding ring → st.phase = .holding ring ∨ sm.IsRing ring

theorem Stream.Grows.refl (sm : StateMachine) (st : Stream) : st.Grows sm st := ⟨Or.inl rfl, fun _ => Or.inl⟩

theorem Stream.grows_send {sm : StateMachine} {st : Stream} {ring : Ring} (here : st.phase = .holding ring)
    (ok : Bool) :
    st.Grows sm (st.send ring ok) := by
  unfold Stream.send
  split_ifs
  · exact ⟨Or.inl rfl, fun _ other => by cases other⟩
  · exact ⟨Or.inr ⟨ring, here, rfl⟩, fun _ other => by cases other⟩
  · exact ⟨Or.inl rfl, fun _ other => by cases other⟩

private theorem Watch.grows_set {s : Watch C} {c : C} {st : Stream} (grows : (s.streams c).Grows s.sm st) (d : C) :
    (s.streams d).Grows s.sm (Function.update s.streams c st d) := by
  by_cases same : d = c
  · subst same
    simpa only [Function.update_self] using grows
  · simpa only [Function.update_of_ne same] using Stream.Grows.refl s.sm (s.streams d)

theorem Watch.grows_step {pb : Protobuf} {s t : Watch C} {a : WatchAction C} (taken : s.step pb a = some t) (d : C) :
    (s.streams d).Grows s.sm (t.streams d) := by
  have moved : ∀ c st, st.sent = (s.streams c).sent → (∀ ring, st.phase = .holding ring → s.sm.IsRing ring) →
      (s.streams d).Grows s.sm (Function.update s.streams c st d) :=
    fun c st same shown => Watch.grows_set ⟨Or.inl same, fun ring here => Or.inr (shown ring here)⟩ d
  cases a with
  | apply raw watchers =>
    simp only [Watch.step] at taken
    split_ifs at taken <;> cases taken <;> exact .refl _ _
  | signal k =>
    simp only [Watch.step] at taken
    split at taken
    next c rest _ =>
      cases taken
      have grows : (s.streams c).Grows s.sm { s.streams c with signal := true } := ⟨Or.inl rfl, fun _ => Or.inl⟩
      exact Watch.grows_set grows d
    · cases taken
  | read c ring =>
    simp only [Watch.step] at taken
    split at taken
    next here =>
      cases taken
      refine moved c _ rfl fun other same => ?_
      cases same
      exact here.2
    · cases taken
  | send c ok =>
    simp only [Watch.step] at taken
    split at taken
    next ring here =>
      cases taken
      exact Watch.grows_set (Stream.grows_send here ok) d
    · cases taken
  | subscribe c | receive c | done c | unsubscribe c =>
    simp only [Watch.step] at taken
    split at taken
    · cases taken
      exact moved c _ rfl fun _ other => by cases other
    · cases taken

theorem Watch.sm_step {pb : Protobuf} {s t : Watch C} {a : WatchAction C} (taken : s.step pb a = some t) :
    t.sm = match a with
      | .apply raw _ => s.sm.apply pb raw
      | _ => s.sm := by
  cases a with
  | apply raw watchers =>
    simp only [Watch.step] at taken
    split_ifs at taken <;> cases taken <;> rfl
  | signal k =>
    simp only [Watch.step] at taken
    split at taken
    · cases taken
      rfl
    · cases taken
  | send c ok =>
    simp only [Watch.step] at taken
    split at taken
    · cases taken
      rfl
    · cases taken
  | subscribe c | read c ring | receive c | done c | unsubscribe c =>
    simp only [Watch.step] at taken
    split at taken
    · cases taken
      rfl
    · cases taken

/-- No update is lost: the epochs on a stream increase, and a stream that waits for its channel when no signal
is on its way has sent the current ring last. -/
theorem watchRing_current (pb : Protobuf) (s : Watch C) (run : s.Reachable pb) (c : C) :
    ((s.streams c).sent.map fun ring => ring.epoch).Pairwise (· < ·) ∧
    ((∀ watchers ∈ s.applies, watchers = []) → (s.streams c).signal = false → (s.streams c).phase = .waiting →
      ∃ ring, (s.streams c).sent.getLast? = some ring ∧ s.sm.IsRing ring) := by
  have inv := (Watch.inv_reachable run).streams c
  refine ⟨inv.increasing, fun quiet empty here => ?_⟩
  have running : (s.streams c).phase.running := by rw [here]; trivial
  have last := inv.last running
  obtain ⟨nonempty, informed⟩ := inv.waiting here
  have current : (s.streams c).lastSent = s.sm.epoch := by
    rcases informed with same | full | ⟨watchers, member, listed⟩
    · exact same
    · rw [empty] at full
      cases full
    · rw [quiet watchers member] at listed
      cases listed
  cases top : (s.streams c).sent.getLast? with
  | none => exact absurd (List.getLast?_eq_none_iff.mp top) nonempty
  | some ring =>
    rw [top] at last
    exact ⟨ring, rfl, (inv.seen ring (List.mem_of_getLast? top)).current (last.symm.trans current)⟩

/-- Node `b` joins while one stream waits and the other one holds the empty ring. -/
def joinActions : List (WatchAction Bool) :=
  [.subscribe true, .read true ⟨0, [], 128⟩, .send true true, .subscribe false, .read false ⟨0, [], 128⟩,
   .apply joinOther [false, true], .signal 0, .send false true, .signal 0,
   .receive false, .receive true, .read false ⟨1, [⟨"b", "y", 0⟩], 128⟩, .read true ⟨1, [⟨"b", "y", 0⟩], 128⟩,
   .send true true, .send false true]

theorem joinActions_current : ∃ s : Watch Bool, s.Reachable samplePb ∧ s.sm.epoch = 1 ∧ ∀ c,
    ((s.streams c).sent.map fun ring => ring.epoch) = [0, 1] ∧
    ((s.streams c).sent.map fun ring => ring.epoch).Pairwise (· < ·) ∧
    ∃ ring, (s.streams c).sent.getLast? = some ring ∧ s.sm.IsRing ring := by
  obtain ⟨s, run, epoch, quiet, ends⟩ := reaches_of_check (Watch.step samplePb) (fun _ _ _ => True) joinActions
    (Watch.start Bool) (fun s => s.sm.epoch = 1 ∧ (∀ watchers ∈ s.applies, watchers = []) ∧
      ∀ c, (s.streams c).signal = false ∧ (s.streams c).phase = .waiting ∧
        ((s.streams c).sent.map fun ring => ring.epoch) = [0, 1]) (by decide +kernel)
  refine ⟨s, run, epoch, fun c => ?_⟩
  obtain ⟨empty, here, sent⟩ := ends c
  have current := watchRing_current samplePb s run c
  exact ⟨sent, current.1, current.2 quiet empty here⟩

end PrefixMesh.Directory
