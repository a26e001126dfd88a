import PrefixMesh.Cachenode.Warming

/-! How the handler of one request goes on while everything else happens on the nodes: the
answers that a `Contains` has collected belong to the ids it has been through, and a
`PutBlocks` is moved by its own stream only. -/

namespace PrefixMesh.Cachenode

variable {F : Type} {c : Cluster F} {s t : State F} {a : Action} {k : Nat} {n : String}

/-- The handler of a `Contains` on node `n` for `ids`, with a relation between the ids and their answers. -/
def Answered (relates : List UInt8 → Bool → Prop) (n : String) (ids : List (List UInt8))
    (call : Option (String × Call)) : Prop :=
  ∀ n' rest present, call = some (n', .contains rest present) →
    n' = n ∧ ∃ front, ids = front ++ rest ∧ List.Forall₂ relates front present

theorem Answered.imp {relates relates' : List UInt8 → Bool → Prop} {ids : List (List UInt8)}
    {call : Option (String × Call)} (answered : Answered relates n ids call)
    (weaker : ∀ raw here, relates raw here → relates' raw here) : Answered relates' n ids call := by
  intro n' rest present found
  obtain ⟨own, front, whole, each⟩ := answered n' rest present found
  exact ⟨own, front, whole, each.imp weaker⟩

theorem Answered.all {relates : List UInt8 → Bool → Prop} {ids : List (List UInt8)} {n' : String} {present : List Bool}
    (answered : Answered relates n ids (some (n', .contains [] present))) : List.Forall₂ relates ids present := by
  obtain ⟨_, front, whole, each⟩ := answered n' [] present rfl
  rw [List.append_nil] at whole
  exact whole ▸ each

theorem answered_new (relates : List UInt8 → Bool → Prop) (n : String) (ids : List (List UInt8)) :
    Answered relates n ids (some (n, .contains ids [])) := by
  intro n' rest present found
  cases found
  exact ⟨rfl, [], rfl, .nil⟩

inductive CallMoves (c : Cluster F) (s : State F) (a : Action) (k : Nat) : Option (String × Call) → Prop where
  | same : CallMoves c s a k (s.calls k)
  | finished : CallMoves c s a k none
  | get (n : String) (raw : List UInt8) (rest : List (List UInt8)) (live : s.calls k = some (n, .get (raw :: rest))) :
      CallMoves c s a k (some (n, .get rest))
  | contains (n : String) (node : Node F) (raw : List UInt8) (rest : List (List UInt8)) (present : List Bool)
      (id : BlockID) (live : s.calls k = some (n, .contains (raw :: rest) present)) (here : s.nodes n = some node)
      (named : toID raw = .ok id) :
      CallMoves c s a k (some (n, .contains rest (present ++ [(node.store.contains c.fl id).1])))
  | touch (n : String) (raw : List UInt8) (rest : List (List UInt8))
      (live : s.calls k = some (n, .touch (raw :: rest))) : CallMoves c s a k (some (n, .touch rest))
  | put (n : String) (stored existing stored' existing' : UInt32) (req : CachePutRequest)
      (live : s.calls k = some (n, .put stored existing)) (own : a = .putNext k req) :
      CallMoves c s a k (some (n, .put stored' existing'))
  | warm (n : String) (cmd : WarmCommand) (fetched fetched' : Option WireBlock)
      (live : s.calls k = some (n, .warm cmd fetched)) : CallMoves c s a k (some (n, .warm cmd fetched'))

theorem CallMoves.of_eq {call : Option (String × Call)} (same : call = s.calls k) : CallMoves c s a k call :=
  same ▸ .same

theorem CallMoves.finish (j : Nat) : CallMoves c s a k ((s.finish j).calls k) := by
  by_cases own : k = j
  · subst own
    simp only [State.finish, Function.update_self]
    exact .finished
  · exact .of_eq (Function.update_of_ne own _ _)

theorem CallMoves.down (n : String) : CallMoves c s a k ((s.down n).calls k) := by
  simp only [State.down]
  cases live : s.calls k with
  | none => exact .finished
  | some call =>
    by_cases own : call.1 = n
    · rw [Option.filter_some_neg (by simpa using own)]
      exact .finished
    · rw [Option.filter_some_pos (by simpa using own)]
      exact .of_eq live.symm

theorem CallMoves.begin_ (old : k < s.begun) (n : String) (call : Call) :
    CallMoves c s a k ((s.begin_ n call).calls k) :=
  .of_eq (Function.update_of_ne (Nat.ne_of_lt old) _ _)

theorem CallMoves.start (old : k < s.begun) {ringEpoch : Nat} {call : Call}
    (started : s.start n ringEpoch call = some t) : CallMoves c s a k (t.calls k) := by
  unfold State.start at started
  split at started
  · cases started
  · split at started
    · cases started
      exact .same
    · cases started
      exact .begin_ old n call

theorem CallMoves.turn {j : Nat} {next : Option (String × Call)} (own : k = j → CallMoves c s a k next) :
    CallMoves c s a k (Function.update s.calls j next k) := by
  by_cases same : k = j
  · subst same
    rw [Function.update_self]
    exact own rfl
  · exact .of_eq (Function.update_of_ne same _ _)

theorem callMoves_of_step (taken : step c s a = some t) (old : k < s.begun) : CallMoves c s a k (t.calls k) := by
  cases effect_of_step a taken with
  | boot | clock | ring => exact .same
  | crash n => exact .down n
  | startGet n ringEpoch ids _ started => exact .start old started
  | startContains n ringEpoch ids _ started => exact .start old started
  | startTouch n ringEpoch ids _ started => exact .start old started
  | startPut n _ _ => exact .begin_ old n _
  | getNext j n node raw rest found =>
    obtain ⟨live, _⟩ := running_cases found
    unfold State.getNext
    split
    · exact .finish j
    · exact .turn fun same => .get n raw rest (same ▸ live)
  | containsNext j n node raw rest present found =>
    obtain ⟨live, here⟩ := running_cases found
    unfold State.containsNext
    split
    · exact .finish j
    next answer store probed =>
      unfold containsOne at probed
      split at probed
      · cases probed
      next id named =>
        have first : answer = (node.store.contains c.fl id).1 := (congrArg Prod.fst (Except.ok.inj probed)).symm
        exact .turn fun same => first ▸ .contains n node raw rest present id (same ▸ live) here named
  | touchNext j n node raw rest found =>
    obtain ⟨live, _⟩ := running_cases found
    unfold State.touchNext
    split
    · exact .finish j
    · exact .turn fun same => .touch n raw rest (same ▸ live)
  | putNext j req n node stored existing found =>
    obtain ⟨live, _⟩ := running_cases found
    unfold State.putNext
    split
    · exact .finish j
    · exact .down n
    · exact .turn fun same => .put n stored existing _ _ req (same ▸ live) (by rw [same])
    · exact .turn fun same => .put n stored existing _ _ req (same ▸ live) (by rw [same])
  | warm n cmd node _ =>
    simp only [State.warm]
    split
    · exact .of_eq (Function.update_of_ne (Nat.ne_of_lt old) _ _)
    · exact .same
  | serve j source n own cmd node found _ =>
    obtain ⟨live, _⟩ := running_cases found
    simp only [State.serve, checkEpoch_zero]
    split
    · exact .finish j
    · exact .turn fun _ => .finished
    · exact .turn fun same => .warm n cmd none _ (same ▸ live)
  | keep j n node cmd p found =>
    unfold State.keep
    split
    · exact .finish j
    · dsimp only
      split
      · exact .down n
      · exact .turn fun _ => .finished
  | finish j => exact .finish j

theorem begun_mono (taken : step c s a = some t) (inv : Inv s) : s.begun ≤ t.begun := by
  cases (moves_of_step inv a taken).calls with
  | same _ begun => exact begun.ge
  | opened _ _ begun => omega
  | turned _ _ _ _ _ _ begun _ => exact begun.ge
  | closed _ _ _ begun => exact begun.ge
  | down _ _ begun _ => exact begun.ge

theorem answered_step {relates : List UInt8 → Bool → Prop} {ids : List (List UInt8)} (taken : step c s a = some t)
    (old : k < s.begun) (answered : Answered relates n ids (s.calls k))
    (new : ∀ node, ∀ raw ∈ ids, ∀ id, s.nodes n = some node → toID raw = .ok id →
      relates raw (node.store.contains c.fl id).1) :
    Answered relates n ids (t.calls k) := by
  intro n' rest present found
  have moves := callMoves_of_step (k := k) taken old
  rw [found] at moves
  generalize same : (some (n', Call.contains rest present) : Option (String × Call)) = call at moves
  cases moves with
  | same => exact answered n' rest present same.symm
  | contains m node raw rest' before id live here named =>
    cases same
    obtain ⟨rfl, front, whole, each⟩ := answered n' (raw :: rest) before live
    refine ⟨rfl, front ++ [raw], by rw [whole, List.append_assoc]; rfl, ?_⟩
    have asked : raw ∈ ids := whole ▸ List.mem_append_right _ List.mem_cons_self
    exact List.rel_append each (.cons (new node raw asked id here named) .nil)
  | finished | get | touch | put | warm => cases same

theorem put_call_step {stored existing : UInt32} (taken : step c s a = some t) (old : k < s.begun)
    (found : t.calls k = some (n, .put stored existing)) :
    ∃ stored' existing', s.calls k = some (n, .put stored' existing') := by
  have moves := callMoves_of_step (k := k) taken old
  rw [found] at moves
  generalize same : (some (n, Call.put stored existing) : Option (String × Call)) = call at moves
  cases moves with
  | same => exact ⟨stored, existing, same.symm⟩
  | put m stored' existing' _ _ req live own =>
    cases same
    exact ⟨stored', existing', live⟩
  | finished | get | touch | contains | warm => cases same

theorem putNext_holds {addrs : Finmap fun _ : String => String} {req : CachePutRequest} {stored existing : UInt32}
    {w : WireBlock} {id : BlockID} (inv : Inv s) (taken : step c s (.putNext k req) = some t)
    (ok : smooth c addrs s (.putNext k req) = true) (open_ : t.calls k = some (n, .put stored existing))
    (block : req.block = some w) (named : w.blockId = id.1) : t.holds c n id = true := by
  generalize same : Action.putNext k req = a at taken
  cases effect_of_step a taken with
  | putNext j req' m node before before' found =>
    cases same
    obtain ⟨_, here⟩ := running_cases found
    obtain ⟨blocks, rep, _⟩ := inv.stores m node here
    have admitted : ∀ outcome evicted store,
        putOne c.fl (c.intn m) node.epoch req node.store = .ok ⟨outcome, evicted, store⟩ →
        (store.contains c.fl id).1 = true := by
      intro outcome evicted store put
      obtain ⟨b, parsed, whole⟩ := putOne_ok put
      simp only [smooth, found, parsed] at ok
      have own : b.id = id := by
        rw [block] at parsed
        exact Subtype.ext ((congrArg WireBlock.blockId (Option.some.inj (toProto_fromProto parsed))).symm.trans named)
      have held := (admits_put rep b ok).1
      rwa [← whole, own] at held
    unfold State.putNext at open_ ⊢
    split at open_
    · simp only [State.finish, Function.update_self] at open_
      cases open_
    next gone =>
      simp only [State.down, Option.filter_eq_some_iff] at open_
      obtain ⟨live, _⟩ := running_cases found
      rw [live] at open_
      simp only [Option.some.injEq, Prod.mk.injEq] at open_
      exact absurd open_.1.1.symm (of_decide_eq_true open_.2)
    next evicted store put =>
      simp only [State.setCall, Function.update_self, Option.some.injEq, Prod.mk.injEq] at open_
      rw [← open_.1]
      simp only [State.holds, State.setCall, State.setNode, Function.update_self, Option.any_some]
      exact admitted _ _ _ put
    next evicted store put =>
      simp only [State.setCall, Function.update_self, Option.some.injEq, Prod.mk.injEq] at open_
      rw [← open_.1]
      simp only [State.holds, State.setCall, State.setNode, Function.update_self, Option.any_some]
      exact admitted _ _ _ put
  | _ => cases same

theorem puts_step (taken : step c s a = some t) :
    t.puts = s.puts ∨ ∃ k req, a = .putNext k req ∧ t.puts = req.block.toList ++ s.puts := by
  cases effect_of_step a taken with
  | boot | clock | ring | crash | startPut | finish => exact Or.inl rfl
  | startGet n ringEpoch ids _ started | startContains n ringEpoch ids _ started
  | startTouch n ringEpoch ids _ started =>
    unfold State.start at started
    split at started
    · cases started
    · split at started <;> cases started <;> exact Or.inl rfl
  | getNext j n node raw rest found =>
    unfold State.getNext
    split <;> exact Or.inl rfl
  | containsNext j n node raw rest present found =>
    unfold State.containsNext
    split <;> exact Or.inl rfl
  | touchNext j n node raw rest found =>
    unfold State.touchNext
    split <;> exact Or.inl rfl
  | putNext j req n node stored existing found =>
    unfold State.putNext
    split
    · exact Or.inl rfl
    · exact Or.inl rfl
    · exact Or.inr ⟨j, req, rfl, rfl⟩
    · exact Or.inr ⟨j, req, rfl, rfl⟩
  | warm n cmd node _ =>
    simp only [State.warm]
    split <;> exact Or.inl rfl
  | serve j source n own cmd node found _ =>
    simp only [State.serve, checkEpoch_zero]
    split <;> exact Or.inl rfl
  | keep j n node cmd p found =>
    unfold State.keep
    split
    · exact Or.inl rfl
    · dsimp only
      split <;> exact Or.inl rfl

def State.Warms (s : State F) (wanted : WarmCommand → Prop) : Prop :=
  ∀ k n cmd fetched, s.calls k = some (n, .warm cmd fetched) → wanted cmd

section Warms

variable {wanted : WarmCommand → Prop} {k : Nat} {call : Call} (warms : s.Warms wanted)

include warms

theorem State.Warms.imp {wanted' : WarmCommand → Prop} (weaker : ∀ cmd, wanted cmd → wanted' cmd) : s.Warms wanted' :=
  fun k n cmd fetched found => weaker cmd (warms k n cmd fetched found)

theorem State.Warms.update {next : Option (String × Call)} (calls : t.calls = Function.update s.calls k next)
    (new : ∀ n cmd fetched, next = some (n, .warm cmd fetched) → wanted cmd) : t.Warms wanted := by
  intro j n cmd fetched found
  rw [calls] at found
  by_cases same : j = k
  · rw [same, Function.update_self] at found
    exact new n cmd fetched found
  · rw [Function.update_of_ne same] at found
    exact warms j n cmd fetched found

theorem State.Warms.finish (k : Nat) : (s.finish k).Warms wanted :=
  warms.update rfl fun _ _ _ none_ => by cases none_

theorem State.Warms.begin_ (n : String) (other : ∀ cmd fetched, call ≠ .warm cmd fetched) :
    (s.begin_ n call).Warms wanted :=
  warms.update rfl fun _ cmd fetched same => absurd (congrArg Prod.snd (Option.some.inj same)) (other cmd fetched)

theorem State.Warms.of_calls (calls : t.calls = s.calls) : t.Warms wanted :=
  fun k n cmd fetched found => warms k n cmd fetched (calls ▸ found)

theorem State.Warms.down (n : String) : (s.down n).Warms wanted :=
  fun k m cmd fetched found => warms k m cmd fetched (Option.eq_some_of_filter_eq_some found)

theorem State.Warms.start {ringEpoch : Nat} (other : ∀ cmd fetched, call ≠ .warm cmd fetched)
    (started : s.start n ringEpoch call = some t) : t.Warms wanted := by
  unfold State.start at started
  split at started
  · cases started
  · split at started
    · cases started
      exact warms
    · cases started
      exact warms.begin_ n other

theorem State.Warms.turn (n : String) (calls : t.calls = Function.update s.calls k (some (n, call)))
    (other : ∀ cmd fetched, call ≠ .warm cmd fetched) : t.Warms wanted :=
  warms.update calls fun _ cmd fetched same => absurd (congrArg Prod.snd (Option.some.inj same)) (other cmd fetched)

theorem State.Warms.step (own : ∀ n cmd, a = .warm n cmd → wanted cmd) (taken : step c s a = some t) :
    t.Warms wanted := by
  cases effect_of_step a taken with
  | boot | clock | ring => exact warms
  | crash n => exact warms.down n
  | startGet _ _ _ _ started => exact warms.start (by simp) started
  | startContains _ _ _ _ started => exact warms.start (by simp) started
  | startTouch _ _ _ _ started => exact warms.start (by simp) started
  | startPut n _ _ => exact warms.begin_ n (by simp)
  | getNext j n =>
    unfold State.getNext
    split
    · exact warms.finish j
    · exact warms.turn n rfl (by simp)
  | containsNext j n =>
    unfold State.containsNext
    split
    · exact warms.finish j
    · exact warms.turn n rfl (by simp)
  | touchNext j n =>
    unfold State.touchNext
    split
    · exact warms.finish j
    · exact warms.turn n rfl (by simp)
  | putNext j req n =>
    unfold State.putNext
    split
    · exact warms.finish j
    · exact warms.down n
    · exact warms.turn n rfl (by simp)
    · exact warms.turn n rfl (by simp)
  | warm n cmd =>
    simp only [State.warm]
    split
    · refine warms.update rfl fun _ cmd' _ same => ?_
      cases same
      exact own n cmd rfl
    · exact warms
  | serve j source n _ cmd _ found =>
    obtain ⟨live, _⟩ := running_cases found
    simp only [State.serve, checkEpoch_zero]
    split
    · exact warms.finish j
    · exact warms.finish j
    · refine warms.update rfl fun _ cmd' _ same => ?_
      cases same
      exact warms j n cmd none live
  | keep j n =>
    unfold State.keep
    split
    · exact warms.finish j
    · dsimp only
      split
      · exact warms.down n
      · exact warms.finish j
  | finish j => exact warms.finish j

end Warms

end PrefixMesh.Cachenode
