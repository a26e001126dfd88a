import Mathlib.Data.List.Nodup
import Mathlib.Data.List.Perm.Subperm
import Mathlib.Logic.Function.Basic
import PrefixMesh.Lib.Runs

/-! The in-memory event plane. `Produce` takes the channels of a topic under the lock and
goes through them without it, so that the calls of several producers interleave; it never
waits for room in a channel. A consumer handles what is in its channel one by one. -/

namespace PrefixMesh.Events

structure Msg where
  key : List UInt8
  value : List UInt8
  deriving DecidableEq

/-- A message in a channel, together with the call of `Produce` that sent it. -/
structure Item where
  call : Nat
  msg : Msg
  deriving DecidableEq

/-- A call of `Produce`: the channels that it found, those that it has still to send to, and the calls that had
returned when it began. -/
structure Call where
  topic : String
  msg : Msg
  chans : List Nat
  rest : List Nat
  returned : List Nat
  deriving DecidableEq

def capacity : Nat := 1024

/-- Besides the bus itself, `handled` is what each consumer has taken out of its channel, and `dropped` are the calls
that found it full. -/
structure State where
  subs : String → List Nat
  made : Nat
  queue : Nat → List Item
  calls : Nat → Option Call
  begun : Nat
  handled : Nat → List Item
  dropped : Nat → List Nat

def newBus : State := ⟨fun _ => [], 0, fun _ => [], fun _ => none, 0, fun _ => [], fun _ => []⟩

inductive Action where
  | subscribe (topic : String)
  | produce (topic : String) (msg : Msg)
  | send (k : Nat)
  | handle (ch : Nat)

def State.subscribe (s : State) (topic : String) : State :=
  { s with subs := Function.update s.subs topic (s.subs topic ++ [s.made]), made := s.made + 1 }

def State.returned (s : State) : List Nat :=
  (List.range s.begun).filter fun k => (s.calls k).any fun c => c.rest.isEmpty

/-- The part of `Produce` under the lock. -/
def State.produce (s : State) (topic : String) (msg : Msg) : State :=
  { s with
    calls := Function.update s.calls s.begun (some ⟨topic, msg, s.subs topic, s.subs topic, s.returned⟩)
    begun := s.begun + 1 }

def State.send (s : State) (k : Nat) (c : Call) (ch : Nat) (rest : List Nat) : State :=
  let s := { s with calls := Function.update s.calls k (some { c with rest := rest }) }
  if (s.queue ch).length < capacity then
    { s with queue := Function.update s.queue ch (s.queue ch ++ [⟨k, c.msg⟩]) }
  else { s with dropped := Function.update s.dropped ch (s.dropped ch ++ [k]) }

def State.handle (s : State) (ch : Nat) (item : Item) (rest : List Item) : State :=
  { s with queue := Function.update s.queue ch rest, handled := Function.update s.handled ch (s.handled ch ++ [item]) }

def step (s : State) : Action → Option State
  | .subscribe topic => some (s.subscribe topic)
  | .produce topic msg => some (s.produce topic msg)
  | .send k =>
      match s.calls k with
      | some c =>
          match c.rest with
          | ch :: rest => some (s.send k c ch rest)
          | [] => none
      | none => none
  | .handle ch =>
      match s.queue ch with
      | item :: rest => some (s.handle ch item rest)
      | [] => none

def State.received (s : State) (ch : Nat) : List Item := s.handled ch ++ s.queue ch

def State.senders (s : State) (ch : Nat) : List Nat := (s.received ch).map Item.call

/-- What can be said of a channel: a call sends to it at most once, and only if the channel was subscribed to the topic
when the call began; a call that has returned before another one began is not behind it; a call that has passed the
channel has sent to it or found it full; and it is not full before so many messages have come in. -/
structure Delivery (s : State) (ch : Nat) : Prop where
  once : (s.senders ch).Nodup
  own : ∀ item ∈ s.received ch, ∃ c, s.calls item.call = some c ∧ item.msg = c.msg ∧ ch ∈ c.chans ∧
    ∀ topic, ch ∈ s.subs topic → c.topic = topic
  ordered : (s.senders ch).Pairwise fun j k => ∀ c, s.calls j = some c → k ∉ c.returned
  sent : ∀ k c, s.calls k = some c → ch ∈ c.chans → ch ∉ c.rest → k ∈ s.senders ch ∨ k ∈ s.dropped ch
  room : s.dropped ch ≠ [] → capacity ≤ (s.received ch).length

/-- The invariant. Every channel that a call has found is either ahead of it, or it has sent there, or found it full. -/
structure Inv (s : State) : Prop where
  fresh : ∀ topic, ∀ ch ∈ s.subs topic, ch < s.made
  distinct : ∀ topic, (s.subs topic).Nodup
  apart : ∀ topic topic' ch, ch ∈ s.subs topic → ch ∈ s.subs topic' → topic = topic'
  unbegun : ∀ k, s.begun ≤ k → s.calls k = none
  calls : ∀ k c, s.calls k = some c → c.chans.Nodup ∧ ∀ ch ∈ c.chans, ch ∈ s.subs c.topic
  counted : ∀ k c ch, s.calls k = some c →
    (s.senders ch).count k + (s.dropped ch).count k + c.rest.count ch = c.chans.count ch
  known : ∀ ch, ∀ item ∈ s.received ch, ∃ c, s.calls item.call = some c ∧ item.msg = c.msg
  lost : ∀ ch, ∀ k ∈ s.dropped ch, s.calls k ≠ none
  past : ∀ k c, s.calls k = some c → ∀ j ∈ c.returned, ∃ d, s.calls j = some d ∧ d.rest = []
  ordered : ∀ ch, (s.senders ch).Pairwise fun j k => ∀ c, s.calls j = some c → k ∉ c.returned
  room : ∀ ch, s.dropped ch ≠ [] → capacity ≤ (s.received ch).length

theorem inv_init : Inv newBus where
  fresh := fun _ => List.forall_mem_nil _
  distinct := fun _ => List.nodup_nil
  apart := fun _ _ _ inside => by cases inside
  unbegun := fun _ _ => rfl
  calls := fun _ _ found => by cases found
  counted := fun _ _ _ found => by cases found
  known := fun _ => List.forall_mem_nil _
  lost := fun _ => List.forall_mem_nil _
  past := fun _ _ found => by cases found
  ordered := fun _ => List.Pairwise.nil
  room := fun _ full => absurd rfl full

variable {s : State}

theorem mem_subscribe {topic t : String} {ch : Nat} :
    ch ∈ (s.subscribe topic).subs t ↔ ch ∈ s.subs t ∨ t = topic ∧ ch = s.made := by
  simp only [State.subscribe, Function.update_apply]
  split
  next same => simp [same]
  next other => simp [other]

theorem Inv.subscribe (inv : Inv s) (topic : String) : Inv (s.subscribe topic) := by
  have new : ∀ t ch, ch ∈ s.subs t → ch ≠ s.made := fun t ch inside => Nat.ne_of_lt (inv.fresh t ch inside)
  refine { inv with
    fresh := fun t ch inside => ?_
    distinct := fun t => ?_
    apart := fun t t' ch inside inside' => ?_
    calls := fun k c found => ⟨(inv.calls k c found).1, fun ch inside =>
      mem_subscribe.mpr (Or.inl ((inv.calls k c found).2 ch inside))⟩ }
  · rcases mem_subscribe.mp inside with old | ⟨_, rfl⟩
    · exact Nat.lt_succ_of_lt (inv.fresh t ch old)
    · exact Nat.lt_succ_self _
  · simp only [State.subscribe, Function.update_apply]
    split
    · refine List.nodup_append.mpr ⟨inv.distinct _, List.nodup_singleton _, fun ch inside ch' made same => ?_⟩
      exact new _ ch inside (same.trans (List.mem_singleton.mp made))
    · exact inv.distinct _
  · rcases mem_subscribe.mp inside with old | ⟨rfl, rfl⟩
    · rcases mem_subscribe.mp inside' with old' | ⟨rfl, rfl⟩
      · exact inv.apart t t' ch old old'
      · exact absurd rfl (new t _ old)
    · rcases mem_subscribe.mp inside' with old' | ⟨rfl, _⟩
      · exact absurd rfl (new t' _ old')
      · rfl

theorem mem_returned {j : Nat} (inside : j ∈ s.returned) : ∃ c, s.calls j = some c ∧ c.rest = [] := by
  obtain ⟨c, found, empty⟩ := (Option.any_eq_true _ _).mp (List.mem_filter.mp inside).2
  exact ⟨c, found, List.isEmpty_iff.mp empty⟩

theorem Inv.produce (inv : Inv s) (topic : String) (msg : Msg) : Inv (s.produce topic msg) := by
  have none_ := inv.unbegun s.begun (Nat.le_refl _)
  have old : ∀ {k c}, s.calls k = some c → (s.produce topic msg).calls k = some c := by
    intro k c found
    refine (Function.update_of_ne ?_ _ _).trans found
    rintro rfl
    rw [none_] at found
    cases found
  have cases_ : ∀ {k c}, (s.produce topic msg).calls k = some c → s.calls k = some c ∨
      k = s.begun ∧ c = ⟨topic, msg, s.subs topic, s.subs topic, s.returned⟩ := by
    intro k c found
    by_cases same : k = s.begun
    · subst same
      refine Or.inr ⟨rfl, ?_⟩
      simp only [State.produce, Function.update_self, Option.some.injEq] at found
      exact found.symm
    · exact Or.inl ((Function.update_of_ne same _ _).symm.trans found)
  have silent : ∀ ch, s.begun ∉ s.senders ch := by
    intro ch inside
    obtain ⟨item, came, same⟩ := List.mem_map.mp inside
    obtain ⟨c, found, _⟩ := inv.known ch item came
    rw [same, none_] at found
    cases found
  refine { inv with
    unbegun := fun k new => ?_
    calls := fun k c found => ?_
    counted := fun k c ch found => ?_
    known := fun ch item came => ?_
    lost := fun ch k inside => ?_
    past := fun k c found j ended => ?_
    ordered := fun ch => ?_ }
  · have new' : s.begun + 1 ≤ k := new
    exact (Function.update_of_ne (by omega) _ _).trans (inv.unbegun k (by omega))
  · rcases cases_ found with before | ⟨rfl, rfl⟩
    · exact inv.calls k c before
    · exact ⟨inv.distinct topic, fun _ inside => inside⟩
  · rcases cases_ found with before | ⟨rfl, rfl⟩
    · exact inv.counted k c ch before
    · have undropped : s.begun ∉ s.dropped ch := fun inside => inv.lost ch _ inside none_
      change (s.senders ch).count _ + (s.dropped ch).count _ + _ = _
      rw [List.count_eq_zero_of_not_mem (silent ch), List.count_eq_zero_of_not_mem undropped, Nat.zero_add]
  · obtain ⟨c, found, same⟩ := inv.known ch item came
    exact ⟨c, old found, same⟩
  · obtain ⟨c, found⟩ := Option.ne_none_iff_exists'.mp (inv.lost ch k inside)
    rw [old found]
    exact Option.some_ne_none c
  · have over_ : ∃ d, s.calls j = some d ∧ d.rest = [] := by
      rcases cases_ found with before | ⟨rfl, rfl⟩
      · exact inv.past k c before j ended
      · exact mem_returned ended
    obtain ⟨d, before, empty⟩ := over_
    exact ⟨d, old before, empty⟩
  · refine (inv.ordered ch).imp_of_mem fun {i j} first _ apart c found => ?_
    rcases cases_ found with before | ⟨rfl, _⟩
    · exact apart c before
    · exact absurd first (silent ch)

section Send

variable {k : Nat} {c : Call} {ch : Nat} {rest : List Nat}

theorem send_received (s : State) (k : Nat) (c : Call) (ch : Nat) (rest : List Nat) (ch' : Nat) :
    (s.send k c ch rest).received ch' =
      if ch' = ch ∧ (s.queue ch).length < capacity then s.received ch ++ [⟨k, c.msg⟩] else s.received ch' := by
  simp only [State.send]
  by_cases space : (s.queue ch).length < capacity
  · by_cases same : ch' = ch
    · simp [State.received, space, same]
    · simp [State.received, space, same]
  · simp [State.received, space]

theorem send_dropped (s : State) (k : Nat) (c : Call) (ch : Nat) (rest : List Nat) (ch' : Nat) :
    (s.send k c ch rest).dropped ch' =
      if ch' = ch ∧ ¬(s.queue ch).length < capacity then s.dropped ch ++ [k] else s.dropped ch' := by
  simp only [State.send]
  by_cases space : (s.queue ch).length < capacity
  · simp [space]
  · by_cases same : ch' = ch
    · simp [space, same]
    · simp [space, same]

theorem send_calls (s : State) (k : Nat) (c : Call) (ch : Nat) (rest : List Nat) :
    (s.send k c ch rest).calls = Function.update s.calls k (some { c with rest := rest }) := by
  simp only [State.send]
  split <;> rfl

theorem send_same (s : State) (k : Nat) (c : Call) (ch : Nat) (rest : List Nat) :
    (s.send k c ch rest).subs = s.subs ∧ (s.send k c ch rest).made = s.made ∧
      (s.send k c ch rest).begun = s.begun ∧ (s.send k c ch rest).handled = s.handled := by
  simp only [State.send]
  split <;> exact ⟨rfl, rfl, rfl, rfl⟩

theorem send_count (s : State) (k : Nat) (c : Call) (ch : Nat) (rest : List Nat) (j ch' : Nat) :
    ((s.send k c ch rest).senders ch').count j + ((s.send k c ch rest).dropped ch').count j =
      (s.senders ch').count j + (s.dropped ch').count j + (if j = k ∧ ch' = ch then 1 else 0) := by
  rw [State.senders, send_received, send_dropped]
  by_cases same : ch' = ch
  · subst same
    by_cases space : (s.queue ch').length < capacity
    · simp only [space, not_true_eq_false, and_false, and_true, if_true, if_false, List.map_append, List.map_cons,
        List.map_nil, List.count_append, List.count_singleton, State.senders]
      grind
    · simp only [space, and_false, not_false_eq_true, and_true, if_true, if_false, List.count_append,
        List.count_singleton, State.senders]
      grind
  · simp [same, State.senders]

section Found

variable (found : s.calls k = some c) (ahead : c.rest = ch :: rest)

include found ahead in
theorem send_back {j : Nat} {d : Call} (after : (s.send k c ch rest).calls j = some d) :
    ∃ d', s.calls j = some d' ∧ d = { d' with rest := d.rest } ∧
      ∀ x, d'.rest.count x = d.rest.count x + (if j = k ∧ x = ch then 1 else 0) := by
  rw [send_calls] at after
  by_cases same : j = k
  · subst same
    rw [Function.update_self, Option.some.injEq] at after
    subst after
    refine ⟨c, found, rfl, fun x => ?_⟩
    rw [ahead, List.count_cons]
    by_cases here : x = ch
    · simp [here]
    · simp [here, Ne.symm here]
  · rw [Function.update_of_ne same] at after
    exact ⟨d, after, rfl, fun x => by simp [same]⟩

include found ahead in
theorem send_forth {j : Nat} {d : Call} (before : s.calls j = some d) :
    ∃ d', (s.send k c ch rest).calls j = some d' ∧ d' = { d with rest := d'.rest } ∧
      (d.rest = [] → d'.rest = []) := by
  rw [send_calls]
  by_cases same : j = k
  · subst same
    rw [found, Option.some.injEq] at before
    subst before
    exact ⟨_, Function.update_self .., rfl, fun empty => by simp [ahead] at empty⟩
  · exact ⟨d, (Function.update_of_ne same _ _).trans before, rfl, fun empty => empty⟩

include found ahead in
theorem Inv.unreturned (inv : Inv s) {j : Nat} {d : Call} (other : s.calls j = some d) : k ∉ d.returned := by
  intro returned
  obtain ⟨c', found', empty⟩ := inv.past j d other k returned
  rw [found, Option.some.injEq] at found'
  rw [← found', ahead] at empty
  cases empty

include found ahead in
theorem Inv.send (inv : Inv s) : Inv (s.send k c ch rest) := by
  obtain ⟨subs, made, begun, _⟩ := send_same s k c ch rest
  refine ⟨?_, ?_, ?_, fun j new => ?_, fun j d after => ?_, fun j d ch' after => ?_, fun ch' item came => ?_,
    fun ch' j full => ?_, fun j d after i ended => ?_, fun ch' => ?_, fun ch' full => ?_⟩
  · rw [subs, made]
    exact inv.fresh
  · rw [subs]
    exact inv.distinct
  · rw [subs]
    exact inv.apart
  · have none_ := inv.unbegun j (begun ▸ new)
    rw [send_calls, Function.update_of_ne _ _ _, none_]
    rintro rfl
    rw [none_] at found
    cases found
  · obtain ⟨d', before, same, _⟩ := send_back found ahead after
    rw [same, subs]
    exact inv.calls j d' before
  · obtain ⟨d', before, same, less⟩ := send_back found ahead after
    have counted := inv.counted j d' ch' before
    have one := less ch'
    rw [send_count, same]
    simp only
    omega
  · have old : ∀ item ∈ s.received ch', ∃ d, (s.send k c ch rest).calls item.call = some d ∧ item.msg = d.msg := by
      intro item before
      obtain ⟨d, known, msg⟩ := inv.known ch' item before
      obtain ⟨d', after, same, _⟩ := send_forth found ahead known
      exact ⟨d', after, by rw [same, msg]⟩
    rw [send_received] at came
    split at came
    next here =>
      obtain ⟨rfl, _⟩ := here
      rcases List.mem_append.mp came with before | new
      · exact old item before
      · rw [List.mem_singleton.mp new]
        obtain ⟨d', after, same, _⟩ := send_forth found ahead found
        exact ⟨d', after, by rw [same]⟩
    next => exact old item came
  · have known : ∃ d, s.calls j = some d := by
      rw [send_dropped] at full
      split at full
      · rcases List.mem_append.mp full with before | new
        · exact Option.ne_none_iff_exists'.mp (inv.lost _ j before)
        · rw [List.mem_singleton.mp new]
          exact ⟨c, found⟩
      · exact Option.ne_none_iff_exists'.mp (inv.lost _ j full)
    obtain ⟨d, before⟩ := known
    obtain ⟨d', after, _⟩ := send_forth found ahead before
    rw [after]
    exact Option.some_ne_none d'
  · obtain ⟨d', before, same, _⟩ := send_back found ahead after
    rw [same] at ended
    obtain ⟨e, known, empty⟩ := inv.past j d' before i ended
    obtain ⟨e', after', _, still⟩ := send_forth found ahead known
    exact ⟨e', after', still empty⟩
  · have old : ∀ j i, (∀ d, s.calls j = some d → i ∉ d.returned) →
        ∀ d, (s.send k c ch rest).calls j = some d → i ∉ d.returned := by
      intro j i apart d after
      obtain ⟨d', before, same, _⟩ := send_back found ahead after
      rw [same]
      exact apart d' before
    rw [State.senders, send_received]
    split
    next here =>
      obtain ⟨rfl, _⟩ := here
      rw [List.map_append]
      refine List.pairwise_append.mpr ⟨(inv.ordered ch').imp (old _ _), List.pairwise_singleton _ _, ?_⟩
      intro j _ i new
      rw [List.map_singleton, List.mem_singleton] at new
      rw [new]
      exact old j k fun d before => inv.unreturned found ahead before
    next => exact (inv.ordered ch').imp (old _ _)
  · rw [send_received]
    rw [send_dropped] at full
    split at full
    next here =>
      obtain ⟨rfl, packed⟩ := here
      rw [if_neg (fun room => packed room.2), State.received, List.length_append]
      omega
    next =>
      have before := inv.room ch' full
      split
      next here =>
        obtain ⟨rfl, _⟩ := here
        rw [List.length_append]
        omega
      next => exact before

end Found

end Send

theorem handle_received {ch : Nat} {item : Item} {rest : List Item} (front : s.queue ch = item :: rest) :
    (s.handle ch item rest).received = s.received := by
  funext ch'
  simp only [State.received, State.handle]
  by_cases same : ch' = ch
  · subst same
    simp [front]
  · simp [same]

theorem Inv.handle (inv : Inv s) {ch : Nat} {item : Item} {rest : List Item} (front : s.queue ch = item :: rest) :
    Inv (s.handle ch item rest) := by
  have received := handle_received front
  have senders : (s.handle ch item rest).senders = s.senders := by
    funext ch'
    rw [State.senders, received, State.senders]
  refine { inv with counted := ?_, known := ?_, ordered := ?_, room := ?_ }
  · rw [senders]
    exact inv.counted
  · rw [received]
    exact inv.known
  · rw [senders]
    exact inv.ordered
  · rw [received]
    exact inv.room

theorem inv_step {t : State} (inv : Inv s) (a : Action) (taken : step s a = some t) : Inv t := by
  cases a with
  | subscribe topic =>
    cases taken
    exact inv.subscribe topic
  | produce topic msg =>
    cases taken
    exact inv.produce topic msg
  | send k =>
    simp only [step] at taken
    split at taken
    next c found =>
      split at taken
      next ch rest ahead =>
        cases taken
        exact inv.send found ahead
      next => cases taken
    next => cases taken
  | handle ch =>
    simp only [step] at taken
    split at taken
    next item rest front =>
      cases taken
      exact inv.handle front
    next => cases taken

theorem Inv.once (inv : Inv s) (ch : Nat) : (s.senders ch).Nodup := by
  refine List.nodup_iff_count_le_one.mpr fun k => ?_
  by_cases inside : k ∈ s.senders ch
  · obtain ⟨item, came, rfl⟩ := List.mem_map.mp inside
    obtain ⟨c, found, _⟩ := inv.known ch item came
    have counted := inv.counted _ c ch found
    have distinct := List.nodup_iff_count_le_one.mp (inv.calls _ c found).1 ch
    omega
  · rw [List.count_eq_zero_of_not_mem inside]
    omega

theorem Inv.delivery (inv : Inv s) (ch : Nat) : Delivery s ch := by
  refine ⟨inv.once ch, fun item came => ?_, inv.ordered ch, fun k c found subscribed passed => ?_, inv.room ch⟩
  · obtain ⟨c, found, same⟩ := inv.known ch item came
    have counted := inv.counted _ c ch found
    have some_ := List.count_pos_iff.mpr (List.mem_map_of_mem (f := Item.call) came)
    have target : ch ∈ c.chans := List.count_pos_iff.mp (by rw [State.senders] at counted; omega)
    refine ⟨c, found, same, target, fun topic listed => ?_⟩
    exact inv.apart c.topic topic ch ((inv.calls _ c found).2 ch target) listed
  · have counted := inv.counted k c ch found
    have found_ := List.count_pos_iff.mpr subscribed
    rw [List.count_eq_zero_of_not_mem passed] at counted
    by_cases sent : k ∈ s.senders ch
    · exact Or.inl sent
    · rw [List.count_eq_zero_of_not_mem sent] at counted
      exact Or.inr (List.count_pos_iff.mp (by omega))

def State.produced (s : State) (topic : String) : List Msg :=
  (List.range s.begun).filterMap fun k => (s.calls k).bind fun c => if c.topic = topic then some c.msg else none

theorem produced_produce (s : State) (topic topic' : String) (msg : Msg) :
    (s.produce topic msg).produced topic' = s.produced topic' ++ if topic = topic' then [msg] else [] := by
  have old : ∀ k ∈ List.range s.begun, (s.produce topic msg).calls k = s.calls k := fun k below =>
    Function.update_of_ne (Nat.ne_of_lt (List.mem_range.mp below)) _ _
  rw [State.produced, State.produce]
  dsimp only
  rw [List.range_succ, List.filterMap_append, State.produced]
  refine congrArg₂ (· ++ ·) (List.filterMap_congr fun k below => by rw [← old k below]; rfl) ?_
  by_cases same : topic = topic'
  · simp [same]
  · simp [same]

theorem produced_send {k : Nat} {c : Call} (found : s.calls k = some c) (ch : Nat) (rest : List Nat) (topic : String) :
    (s.send k c ch rest).produced topic = s.produced topic := by
  rw [State.produced, State.produced, (send_same s k c ch rest).2.2.1, send_calls]
  refine List.filterMap_congr fun j _ => ?_
  by_cases same : j = k
  · subst same
    rw [Function.update_self, found]
    rfl
  · rw [Function.update_of_ne same]

theorem Inv.received_subperm (inv : Inv s) {topic : String} {ch : Nat} (subscribed : ch ∈ s.subs topic) :
    ((s.received ch).map Item.msg).Subperm (s.produced topic) := by
  have sent : (s.received ch).map Item.msg = (s.senders ch).filterMap fun k =>
      (s.calls k).bind fun c => if c.topic = topic then some c.msg else none := by
    rw [State.senders, List.filterMap_map, ← List.filterMap_eq_map]
    refine List.filterMap_congr fun item came => ?_
    obtain ⟨c, found, same, _, own⟩ := (inv.delivery ch).own item came
    simp only [Function.comp_apply, found, Option.bind_some, if_pos (own topic subscribed), same]
  have begun : s.senders ch ⊆ List.range s.begun := by
    intro k inside
    obtain ⟨item, came, rfl⟩ := List.mem_map.mp inside
    obtain ⟨c, found, _⟩ := inv.known ch item came
    by_contra new
    rw [inv.unbegun _ (by simpa using new)] at found
    cases found
  obtain ⟨list, perm, sublist⟩ := List.subperm_of_subset (inv.once ch) begun
  rw [sent]
  exact ⟨_, perm.filterMap _, sublist.filterMap _⟩

/-- Whatever the producers and the consumers do, and in whatever order: a consumer gets a message of its topic at most
once, one that was produced before another is not behind it, and none of the first 1024 is lost. -/
theorem bus_delivers (run : Lib.Reaches step (fun _ _ _ => True) newBus s) (ch : Nat) : Delivery s ch :=
  (run.invariant Inv inv_init fun _ a _ inv taken _ => inv_step inv a taken).delivery ch

/-- Two calls at a time: the consumers get their messages in different orders. -/
theorem bus_delivers_sample : ∃ s, Lib.Reaches step (fun _ _ _ => True) newBus s ∧ s.senders 0 = [0, 1] ∧
    s.senders 1 = [1, 0] ∧ (s.handled 0).map (fun item => item.msg.value) = [[1]] ∧ Delivery s 0 ∧ Delivery s 1 := by
  obtain ⟨s, run, first, second, handled⟩ := Lib.reaches_of_check step (fun _ _ _ => True)
    [.subscribe "t", .subscribe "t", .produce "t" ⟨[], [1]⟩, .produce "t" ⟨[], [2]⟩, .send 0, .send 1, .send 1,
      .handle 0, .send 0] newBus
    (fun s => s.senders 0 = [0, 1] ∧ s.senders 1 = [1, 0] ∧ (s.handled 0).map (fun item => item.msg.value) = [[1]])
    (by decide)
  exact ⟨s, run, first, second, handled, bus_delivers run 0, bus_delivers run 1⟩

end PrefixMesh.Events
