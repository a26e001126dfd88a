import PrefixMesh.Cachenode.Calls
import PrefixMesh.Gateway.Exact
import PrefixMesh.Mesh.System

/-! Where the hits of a `Match` come from. Whatever happens in the mesh, a block that is
counted as matched has been put on a node, and has been written back by a request whose
`Match` had been answered before and had not found it. -/

namespace PrefixMesh.Mesh

open Hashring (Ring)
open Cachenode (Answered CachePutRequest checkEpoch)
open Gateway (Batch ByOwner Hits MatchResponse Round depthLoop groupLoop routeLoop settle settleLoop)
open Loadgen (Config Request)

variable {W F : Type} {m : Setup F}

/-- One of the requests has missed the block, and this is what its worker has to write back. -/
def Missed (m : Setup F) (results : List (Result m.cfg)) (b : WireBlock) : Prop :=
  ∃ r ∈ results, b ∈ r.req.writeBack m.sha r.depth

/-- The id is that of a block which one of the requests has missed and which has been put on a node since. -/
def Written (m : Setup F) (results : List (Result m.cfg)) (puts : List WireBlock) (raw : List UInt8) : Prop :=
  ∃ b ∈ puts, b.blockId = raw ∧ Missed m results b

/-- Each result matches what the results before it have missed and had written back. -/
def Justified (m : Setup F) (puts : List WireBlock) : List (Result m.cfg) → Prop
  | [] => True
  | r :: earlier => (r.depth ≤ (r.req.ids m.sha).length ∧
      ∀ j < r.depth, Written m earlier puts ((r.req.raw m.sha).getD j [])) ∧ Justified m puts earlier

variable {results : List (Result m.cfg)} {s t : State W F m.cfg} {chain : List (List UInt8)}

def HitsWritten (m : Setup F) (s : State W F m.cfg) (chain : List (List UInt8)) (hits : Hits) : Prop :=
  ∀ i, hits.present i = true → Written m s.results s.nodes.puts (chain.getD i [])

/-- A probe asks for ids of the chain, and the node has said so far that it has some that have been written back. -/
structure ProbeWritten (m : Setup F) (s : State W F m.cfg) (chain : List (List UInt8)) (p : Probe) : Prop where
  formed : ∀ x ∈ p.content, x.2 = chain.getD x.1 []
  call : ∀ k, p.call = some k → k < s.nodes.begun ∧
    Answered (fun raw here => here = true → Written m s.results s.nodes.puts raw) p.node (p.content.map Prod.snd)
      (s.nodes.calls k)

def PhaseWritten (m : Setup F) (s : State W F m.cfg) : Phase m.cfg → Prop
  | .idle | .stopped | .asked _ _ => True
  | .rounds job _ _ _ _ hits _ => HitsWritten m s (job.req.raw m.sha) hits
  | .probing job _ _ _ round _ pending => HitsWritten m s (job.req.raw m.sha) round.hits ∧
      ∀ p ∈ pending, ProbeWritten m s (job.req.raw m.sha) p
  | .matched job _ _ resp _ => resp.matchedDepth.toNat ≤ (job.req.raw m.sha).length ∧
      ∀ j < resp.matchedDepth.toNat, Written m s.results s.nodes.puts ((job.req.raw m.sha).getD j [])
  | .writing _ rest byOwner => (∀ b ∈ rest, Missed m s.results b) ∧
      ∀ n, ∀ b ∈ (byOwner.lookup n).getD [], Missed m s.results b
  | .forwarding _ _ streams => ∀ x ∈ streams, ∀ b ∈ x.content, Missed m s.results b

structure Inv (m : Setup F) (s : State W F m.cfg) : Prop where
  nodes : Cachenode.Inv s.nodes
  puts : ∀ p ∈ s.nodes.puts, Missed m s.results p
  wire : ∀ k, ∀ req ∈ s.wire k, ∀ b, req.block = some b → Missed m s.results b
  phases : ∀ w, PhaseWritten m s (s.phase w)
  results : Justified m s.nodes.puts s.results

theorem Missed.mono {b : WireBlock} (missed : Missed m results b) (r : Result m.cfg) : Missed m (r :: results) b := by
  obtain ⟨r', inside, back⟩ := missed
  exact ⟨r', List.mem_cons_of_mem _ inside, back⟩

theorem Justified.mono {puts puts' : List WireBlock} (justified : Justified m puts results)
    (more : ∀ b ∈ puts, b ∈ puts') : Justified m puts' results := by
  induction results with
  | nil => trivial
  | cons r earlier ih =>
    refine ⟨⟨justified.1.1, fun j below => ?_⟩, ih justified.2⟩
    obtain ⟨b, put, rest⟩ := justified.1.2 j below
    exact ⟨b, more b put, rest⟩

section Settle

theorem settle_hits {good : Nat → Prop} {node : String} {batch : Batch} {present : List Bool} {r : Round}
    (each : List.Forall₂ (fun x here => here = true → good x.1) batch present)
    (before : ∀ i, r.hits.present i = true → good i) :
    ∀ i, (settle (.ok present) node batch r).hits.present i = true → good i := by
  simp only [settle]
  induction each generalizing r with
  | nil => exact before
  | @cons x here batch present first _ ih =>
    simp only [settleLoop, List.head?_cons, List.tail_cons, Option.some.injEq]
    split
    next hit =>
      refine ih fun i found => ?_
      by_cases same : i = x.1
      · exact same ▸ first hit
      · simp only [Hits.set, Function.update_of_ne same] at found
        exact before i found
    next => exact ih before

end Settle

section Steps

variable {a : Action W m.cfg}

theorem unrelated_not_put {b : Cachenode.Action} (unrelated : Unrelated b = true) (k : Nat) (req : CachePutRequest) :
    b ≠ .putNext k req := by
  rintro rfl
  cases unrelated

/-- What a step does besides moving a worker: the nodes make at most one step of their own, which is a round of a
`PutBlocks` only for what has been sent, at most one result is added, and what is sent was to be forwarded. -/
structure Frame (m : Setup F) (s t : State W F m.cfg) : Prop where
  nodes : t.nodes = s.nodes ∨ ∃ b, Cachenode.step m.nodes s.nodes b = some t.nodes ∧
    ∀ k req, b = .putNext k req → req ∈ s.wire k
  results : t.results = s.results ∨ ∃ r, t.results = r :: s.results
  wire : ∀ k, ∀ req ∈ t.wire k, req ∈ s.wire k ∨ ∃ w res epoch streams x b,
    s.phase w = .forwarding res epoch streams ∧ x ∈ streams ∧ b ∈ x.content ∧ req.block = some b

theorem Frame.inv (frame : Frame m s t) (inv : Cachenode.Inv s.nodes) : Cachenode.Inv t.nodes := by
  rcases frame.nodes with same | ⟨b, inner, _⟩
  · exact same ▸ inv
  · exact Cachenode.inv_step inv b inner

theorem Frame.phase (nodes : t.nodes = s.nodes) (results : t.results = s.results) (wire : t.wire = s.wire) :
    Frame m s t :=
  ⟨Or.inl nodes, Or.inl results, fun k req inside => Or.inl (by rwa [← wire])⟩

theorem Frame.respond [DecidableEq W] (w : W) (job : Job m.cfg) (resp : MatchResponse) (nodes : t.nodes = s.nodes)
    (results : t.results = s.results) (wire : t.wire = s.wire) : Frame m s (t.respond m w job resp) := by
  refine ⟨Or.inl (by rw [respond_nodes, nodes]), Or.inr ⟨_, by rw [respond_results, results]⟩, fun k req inside => ?_⟩
  rw [respond_wire, wire] at inside
  exact Or.inl inside

theorem Frame.inner {b : Cachenode.Action} (taken : Cachenode.step m.nodes s.nodes b = some t.nodes)
    (plain : ∀ k req, b ≠ .putNext k req) (results : t.results = s.results) (wire : t.wire = s.wire) : Frame m s t :=
  ⟨Or.inr ⟨b, taken, fun k req same => absurd same (plain k req)⟩, Or.inl results,
    fun k req inside => Or.inl (by rwa [← wire])⟩

theorem Frame.puts (frame : Frame m s t) : ∀ b ∈ s.nodes.puts, b ∈ t.nodes.puts := by
  intro b put
  rcases frame.nodes with same | ⟨_, inner, _⟩
  · rwa [same]
  · rcases Cachenode.puts_step inner with same | ⟨k, req, _, grown⟩
    · rwa [same]
    · rw [grown]
      exact List.mem_append_right _ put

theorem Frame.missed (frame : Frame m s t) {b : WireBlock} (missed : Missed m s.results b) : Missed m t.results b := by
  rcases frame.results with same | ⟨r, grown⟩
  · rwa [same]
  · rw [grown]
    exact missed.mono r

theorem frame_of_effect [DecidableEq W] (effect : Effect m s a t) : Frame m s t := by
  cases effect with
  | begin_ | fanout | fail | finishRound | collect | close | drop | done | abort => exact .phase rfl rfl rfl
  | read w shown job attempt _ =>
    unfold State.read
    split
    · exact .respond w job _ rfl rfl rfl
    · split
      · exact .respond w job _ rfl rfl rfl
      · exact .phase rfl rfl rfl
  | arrive w job attempt ring replica round wrongEpoch pending node batch own _ _ here =>
    unfold State.arrive
    split
    · exact .phase rfl rfl rfl
    next current =>
      refine .inner (b := .startContains node ring.epoch (batch.map Prod.snd)) ?_ (unrelated_not_put rfl) rfl rfl
      simp only [Cachenode.step, Cachenode.State.start, here, current]
  | answer w job attempt ring replica round wrongEpoch pending node batch k n present _ _ _ =>
    exact .inner (b := .finish k) rfl (unrelated_not_put rfl) rfl rfl
  | conclude w newer job attempt ring resp wrongEpoch _ =>
    unfold State.conclude
    split
    · exact .phase rfl rfl rfl
    · exact .respond w job resp rfl rfl rfl
  | receive w shown res b rest byOwner _ =>
    unfold State.receive
    split
    · exact .phase rfl rfl rfl
    · exact .phase rfl rfl rfl
  | open_ w res epoch streams node blocks own _ _ here =>
    refine .inner (b := .startPut node) ?_ (fun _ _ same => by cases same) rfl rfl
    simp only [Cachenode.step, here, Option.map_some]
  | send w res epoch streams node b blocks k at_ found =>
    refine ⟨Or.inl rfl, Or.inl rfl, fun j req inside => ?_⟩
    by_cases same : j = k
    · subst same
      simp only [Function.update_self] at inside
      rcases List.mem_append.mp inside with old | new
      · exact Or.inl old
      · rw [List.mem_singleton.mp new]
        exact Or.inr ⟨w, res, epoch, streams, _, b, at_, found, List.mem_cons_self, rfl⟩
    · simp only [Function.update_of_ne same] at inside
      exact Or.inl inside
  | deliver k req rest nodes queued inner =>
    refine ⟨Or.inr ⟨_, inner, ?_⟩, Or.inl rfl, fun j x inside => ?_⟩
    · rintro _ _ same
      cases same
      rw [queued]
      exact List.mem_cons_self
    · by_cases same : j = k
      · subst same
        simp only [Function.update_self] at inside
        exact Or.inl (queued ▸ List.mem_cons_of_mem _ inside)
      · simp only [Function.update_of_ne same] at inside
        exact Or.inl inside
  | recv w res epoch streams node k n stored existing _ _ _ _ =>
    exact .inner (b := .finish k) rfl (unrelated_not_put rfl) rfl rfl
  | other b nodes unrelated inner => exact .inner inner (unrelated_not_put unrelated) rfl rfl

structure Forward (m : Setup F) (s t : State W F m.cfg) : Prop where
  missed : ∀ b, Missed m s.results b → Missed m t.results b
  written : ∀ raw, Written m s.results s.nodes.puts raw → Written m t.results t.nodes.puts raw
  begun : s.nodes.begun ≤ t.nodes.begun
  answered : ∀ k < s.nodes.begun, ∀ n ids,
    Answered (fun raw here => here = true → Written m s.results s.nodes.puts raw) n ids (s.nodes.calls k) →
    Answered (fun raw here => here = true → Written m t.results t.nodes.puts raw) n ids (t.nodes.calls k)

theorem Inv.forward (inv : Inv m s) (frame : Frame m s t) : Forward m s t := by
  have written : ∀ raw, Written m s.results s.nodes.puts raw → Written m t.results t.nodes.puts raw := by
    rintro raw ⟨b, put, named, missed⟩
    exact ⟨b, frame.puts b put, named, frame.missed missed⟩
  have weaker : ∀ raw here, (here = true → Written m s.results s.nodes.puts raw) → here = true →
      Written m t.results t.nodes.puts raw := fun raw here before hit => written raw (before hit)
  rcases frame.nodes with same | ⟨b, taken, _⟩
  · refine ⟨fun _ => frame.missed, written, by rw [same], fun k _ n ids answered => ?_⟩
    have after := answered.imp weaker
    rwa [same] at after ⊢
  · refine ⟨fun _ => frame.missed, written, Cachenode.begun_mono taken inv.nodes, fun k old n ids answered => ?_⟩
    refine (Cachenode.answered_step taken old answered fun node raw _ id here named hit => ?_).imp weaker
    -- what a node has was put
    obtain ⟨blocks, rep, own⟩ := inv.nodes.stores n node here
    rw [(rep.contains m.nodes.fl id).1, Option.isSome_iff_exists] at hit
    obtain ⟨b, held⟩ := hit
    obtain ⟨own', put⟩ := own id b held
    exact ⟨_, put, (congrArg Subtype.val own').trans (Cachenode.toID_ok named), inv.puts _ put⟩

theorem Forward.hits {hits : Hits} (forward : Forward m s t) (before : HitsWritten m s chain hits) :
    HitsWritten m t chain hits :=
  fun i here => forward.written _ (before i here)

theorem Forward.probe {p : Probe} (forward : Forward m s t) (before : ProbeWritten m s chain p) :
    ProbeWritten m t chain p := by
  refine ⟨before.formed, fun k called => ?_⟩
  obtain ⟨old, answered⟩ := before.call k called
  exact ⟨lt_of_lt_of_le old forward.begun, forward.answered k old _ _ answered⟩

theorem Forward.phase {phase : Phase m.cfg} (forward : Forward m s t) (before : PhaseWritten m s phase) :
    PhaseWritten m t phase := by
  cases phase with
  | idle | stopped | asked => trivial
  | rounds => exact forward.hits before
  | probing => exact ⟨forward.hits before.1, fun p inside => forward.probe (before.2 p inside)⟩
  | matched => exact ⟨before.1, fun j below => forward.written _ (before.2 j below)⟩
  | writing =>
    exact ⟨fun b inside => forward.missed _ (before.1 b inside),
      fun n b inside => forward.missed _ (before.2 n b inside)⟩
  | forwarding => exact fun x among b inside => forward.missed _ (before x among b inside)

theorem Inv.phases_update [DecidableEq W] (inv : Inv m s) (forward : Forward m s t) {w : W} {phase : Phase m.cfg}
    (moved : t.phase = Function.update s.phase w phase) (new : PhaseWritten m t phase) (w' : W) :
    PhaseWritten m t (t.phase w') := by
  rw [moved]
  by_cases same : w' = w
  · rw [same, Function.update_self]
    exact new
  · rw [Function.update_of_ne same]
    exact forward.phase (inv.phases w')

theorem answeredPhase_written {job : Job m.cfg} {resp : MatchResponse}
    (counted : ⟨job, resp⟩ ∈ t.results) : PhaseWritten m t (answeredPhase m job resp) := by
  unfold answeredPhase
  split
  · refine ⟨fun b inside => ?_, fun n b inside => ?_⟩
    · exact ⟨_, counted, inside⟩
    · rw [AList.lookup_empty, Option.getD_none] at inside
      cases inside
  · trivial

theorem Inv.respond [DecidableEq W] (inv : Inv m s) {u : State W F m.cfg} {w : W} {job : Job m.cfg}
    {resp : MatchResponse} (forward : Forward m s (u.respond m w job resp)) (phase : u.phase = s.phase) (w' : W) :
    PhaseWritten m (u.respond m w job resp) ((u.respond m w job resp).phase w') := by
  refine inv.phases_update forward (by rw [respond_phase, phase]) (answeredPhase_written ?_) w'
  rw [respond_results]
  exact List.mem_cons_self

theorem hitsWritten_none (s : State W F m.cfg) (chain : List (List UInt8)) :
    HitsWritten m s chain ⟨fun _ => false, fun _ => ""⟩ := by
  intro i here
  cases here

theorem fanout_formed {ring : Ring} {replica : Nat} {client : Nat → String → Bool} {probe : List Nat}
    {entry : Σ _ : String, Batch}
    (inside : entry ∈ (groupLoop ring chain replica client probe ∅ []).1.entries) :
    ∀ x ∈ entry.2, x.2 = chain.getD x.1 [] := by
  have formed := Gateway.groupLoop_formed ring chain replica client (fun _ => True) probe (fun _ _ => trivial) ∅ []
    (by simp) entry.1 entry.2 (AList.mem_lookup_iff.mpr inside)
  exact fun x among => (formed.2 x among).2.1

theorem response_depth (chain : List (List UInt8)) (ring : Ring) (hits : Hits) :
    (response chain ring hits).matchedDepth.toNat ≤ chain.length ∧
      ∀ j < (response chain ring hits).matchedDepth.toNat, hits.present j = true := by
  obtain ⟨below, each, _⟩ := Gateway.depthLoop_spec hits.present chain.length 0
  have wraps : (response chain ring hits).matchedDepth.toNat ≤ depthLoop hits.present chain.length 0 :=
    (UInt32.toNat_ofNat).trans_le (Nat.mod_le _ _)
  exact ⟨by omega, fun j small => each j (Nat.zero_le _) (lt_of_lt_of_le small wraps)⟩

theorem Inv.probing (inv : Inv m s) {w : W} {job : Job m.cfg} {attempt : Nat} {ring : Ring} {replica : Nat}
    {round : Round} {wrongEpoch : Bool} {pending : List Probe}
    (at_ : s.phase w = .probing job attempt ring replica round wrongEpoch pending) :
    HitsWritten m s (job.req.raw m.sha) round.hits ∧
      ∀ p ∈ pending, ProbeWritten m s (job.req.raw m.sha) p := by
  have here := inv.phases w
  rwa [at_] at here

theorem Inv.forwarding (inv : Inv m s) {w : W} {res : Result m.cfg} {epoch : Nat} {streams : List Stream}
    (at_ : s.phase w = .forwarding res epoch streams) :
    ∀ x ∈ streams, ∀ b ∈ x.content, Missed m s.results b := by
  have here := inv.phases w
  rwa [at_] at here

theorem Inv.phases_step [DecidableEq W] (inv : Inv m s) (forward : Forward m s t) (effect : Effect m s a t) (w' : W) :
    PhaseWritten m t (t.phase w') := by
  cases effect with
  | begin_ w req _ => exact inv.phases_update forward rfl trivial w'
  | read w shown job attempt _ =>
    unfold State.read at forward ⊢
    split at forward
    · exact inv.respond forward rfl w'
    · split at forward
      next empty =>
        rw [if_pos empty]
        exact inv.respond forward rfl w'
      next filled =>
        rw [if_neg filled]
        exact inv.phases_update forward rfl (hitsWritten_none _ _) w'
  | fanout w missing job attempt ring replica probe hits wrongEpoch at_ _ _ =>
    have here := inv.phases w
    rw [at_] at here
    refine inv.phases_update forward rfl ⟨forward.hits here, fun p inside => ?_⟩ w'
    obtain ⟨entry, among, rfl⟩ := List.mem_map.mp inside
    exact ⟨fanout_formed among, fun k called => by cases called⟩
  | arrive w job attempt ring replica round wrongEpoch pending node batch own at_ found here =>
    obtain ⟨hits, probes⟩ := inv.probing at_
    unfold State.arrive at forward ⊢
    split at forward
    · refine inv.phases_update forward rfl ⟨forward.hits hits, fun p inside => ?_⟩ w'
      exact forward.probe (probes p (List.mem_of_mem_filter inside))
    · refine inv.phases_update forward rfl ⟨forward.hits hits, fun p inside => ?_⟩ w'
      rcases mem_replaced inside with rfl | old
      · refine ⟨(probes _ found).formed, fun k called => ?_⟩
        cases called
        refine ⟨Nat.lt_succ_self _, ?_⟩
        simp only [Cachenode.State.begin_, Cachenode.State.setCall, Function.update_self]
        exact Cachenode.answered_new _ _ _
      · exact forward.probe (probes p old)
  | answer w job attempt ring replica round wrongEpoch pending node batch k n present at_ found finished =>
    obtain ⟨hits, probes⟩ := inv.probing at_
    refine inv.phases_update forward rfl ⟨?_, fun p inside => ?_⟩ w'
    · have answered := ((probes _ found).call k rfl).2
      rw [finished] at answered
      have each := List.forall₂_map_left_iff.mp answered.all
      refine settle_hits (List.forall₂_iff_get.mpr ⟨each.length_eq, fun i low high hit => ?_⟩) (forward.hits hits)
      have written := each.get low high hit
      rw [(probes _ found).formed _ (List.get_mem batch ⟨i, low⟩)] at written
      exact forward.written _ written
    · exact forward.probe (probes p (List.mem_of_mem_filter inside))
  | fail w e job attempt ring replica round wrongEpoch pending p at_ found =>
    obtain ⟨hits, probes⟩ := inv.probing at_
    refine inv.phases_update forward rfl ⟨forward.hits hits, fun q inside => ?_⟩ w'
    exact forward.probe (probes q (List.mem_of_mem_filter inside))
  | finishRound w job attempt ring replica round wrongEpoch at_ =>
    exact inv.phases_update forward rfl (forward.hits (inv.probing at_).1) w'
  | collect w job attempt ring replica probe hits wrongEpoch at_ _ =>
    have here := inv.phases w
    rw [at_] at here
    obtain ⟨short, each⟩ := response_depth (job.req.raw m.sha) ring hits
    exact inv.phases_update forward rfl ⟨short, fun j below => forward.hits here j (each j below)⟩ w'
  | conclude w newer job attempt ring resp wrongEpoch _ =>
    unfold State.conclude at forward ⊢
    split at forward
    next again =>
      rw [if_pos again]
      exact inv.phases_update forward rfl trivial w'
    next once =>
      rw [if_neg once]
      exact inv.respond forward rfl w'
  | receive w shown res b rest byOwner at_ =>
    have here := inv.phases w
    rw [at_] at here
    obtain ⟨waiting, routed⟩ := here
    unfold State.receive at forward ⊢
    split at forward
    · exact inv.phases_update forward rfl trivial w'
    next result done =>
      refine inv.phases_update forward rfl ⟨fun b' inside => ?_, fun n b' inside => ?_⟩ w'
      · exact forward.missed _ (waiting b' (List.mem_cons_of_mem _ inside))
      · rcases (Gateway.routeLoop_mem _ _ _ _ done n b').mp inside with old | ⟨ring, among, _⟩
        · exact forward.missed _ (routed n b' old)
        · cases List.mem_singleton.mp among
          exact forward.missed _ (waiting _ List.mem_cons_self)
  | close w shown missing res byOwner at_ =>
    have here := inv.phases w
    rw [at_] at here
    refine inv.phases_update forward rfl (fun x inside b among => ?_) w'
    obtain ⟨entry, listed, rfl⟩ := List.mem_map.mp inside
    have found := AList.mem_lookup_iff.mpr (List.mem_of_mem_filter listed)
    refine forward.missed _ (here.2 entry.1 b ?_)
    rw [found]
    exact among
  | open_ w res epoch streams node blocks own at_ found _ =>
    refine inv.phases_update forward rfl (fun x inside b among => ?_) w'
    rcases mem_replaced inside with rfl | old
    · exact forward.missed _ (inv.forwarding at_ _ found b among)
    · exact forward.missed _ (inv.forwarding at_ x old b among)
  | send w res epoch streams node b blocks k at_ found =>
    refine inv.phases_update forward rfl (fun x inside b' among => ?_) w'
    rcases mem_replaced inside with rfl | old
    · exact forward.missed _ (inv.forwarding at_ _ found b' (List.mem_cons_of_mem _ among))
    · exact forward.missed _ (inv.forwarding at_ x old b' among)
  | recv w res epoch streams node k n stored existing at_ _ _ _ =>
    exact inv.phases_update forward rfl (fun x inside b among =>
      forward.missed _ (inv.forwarding at_ x (List.mem_of_mem_filter inside) b among)) w'
  | drop w node res epoch streams at_ =>
    exact inv.phases_update forward rfl (fun x inside b among =>
      forward.missed _ (inv.forwarding at_ x (List.mem_of_mem_filter inside) b among)) w'
  | done w res epoch _ => exact inv.phases_update forward rfl trivial w'
  | abort w => exact inv.phases_update forward rfl trivial w'
  | deliver | other => exact forward.phase (inv.phases w')

theorem Justified.respond (justified : Justified m s.nodes.puts s.results) {job : Job m.cfg} {resp : MatchResponse}
    (short : resp.matchedDepth.toNat ≤ (job.req.raw m.sha).length)
    (written : ∀ j < resp.matchedDepth.toNat, Written m s.results s.nodes.puts ((job.req.raw m.sha).getD j [])) :
    Justified m s.nodes.puts (⟨job, resp⟩ :: s.results) := by
  rw [Request.raw, List.length_map] at short
  exact ⟨⟨short, written⟩, justified⟩

theorem Inv.results_step [DecidableEq W] (inv : Inv m s) (effect : Effect m s a t) :
    Justified m s.nodes.puts t.results := by
  have nothing : ∀ (w : W) (job : Job m.cfg), Justified m s.nodes.puts (s.respond m w job ⟨0, [], 0⟩).results := by
    intro w job
    rw [respond_results]
    exact inv.results.respond (Nat.zero_le _) fun j below => absurd below (Nat.not_lt_zero j)
  cases effect with
  | read w shown job attempt _ =>
    unfold State.read
    split
    · exact nothing w job
    · split
      · exact nothing w job
      · exact inv.results
  | conclude w newer job attempt ring resp wrongEpoch at_ =>
    have here := inv.phases w
    rw [at_] at here
    unfold State.conclude
    split
    · exact inv.results
    · rw [respond_results]
      exact inv.results.respond here.1 here.2
  | arrive w job attempt ring replica round wrongEpoch pending node batch own _ _ _ =>
    unfold State.arrive
    split <;> exact inv.results
  | receive w shown res b rest byOwner _ =>
    unfold State.receive
    split <;> exact inv.results
  | _ => exact inv.results

theorem inv_step [DecidableEq W] (inv : Inv m s) (taken : step m s a = some t) : Inv m t := by
  have effect := effect_of_step taken
  have frame := frame_of_effect effect
  have forward := inv.forward frame
  refine ⟨frame.inv inv.nodes, ?_, ?_, inv.phases_step forward effect, (inv.results_step effect).mono frame.puts⟩
  · have old : ∀ p ∈ s.nodes.puts, Missed m t.results p := fun p inside => forward.missed _ (inv.puts p inside)
    rcases frame.nodes with same | ⟨b, inner, sent⟩
    · rwa [same]
    · rcases Cachenode.puts_step inner with same | ⟨k, req, rfl, grown⟩
      · rwa [same]
      · intro p inside
        rw [grown] at inside
        rcases List.mem_append.mp inside with new | before
        · exact forward.missed _ (inv.wire k req (sent k req rfl) p (Option.mem_toList.mp new))
        · exact old p before
  · intro k req inside b named
    rcases frame.wire k req inside with old | ⟨w, res, epoch, streams, x, b', at_, among, forwarded, same⟩
    · exact forward.missed _ (inv.wire k req old b named)
    · rw [same] at named
      cases named
      exact forward.missed _ (inv.forwarding at_ x among b forwarded)

theorem inv_init : Inv m (init m.cfg : State W F m.cfg) where
  nodes := Cachenode.inv_init
  puts := by
    intro p inside
    cases inside
  wire := by
    intro k req inside
    cases inside
  phases := fun _ => trivial
  results := trivial

end Steps

theorem Justified.split {puts : List WireBlock} {later earlier : List (Result m.cfg)} {r : Result m.cfg}
    (justified : Justified m puts (later ++ r :: earlier)) : r.depth ≤ (r.req.ids m.sha).length ∧
      ∀ j < r.depth, Written m earlier puts ((r.req.raw m.sha).getD j []) := by
  induction later with
  | nil => exact justified.1
  | cons _ later ih => exact ih justified.2

/-- In every run of the mesh, with any nodes crashing, evicting or failing to answer and any rings shown, each block
that a `Match` counts as matched was missed by a request whose `Match` had been answered before, for a prompt with the
same tokens up to the end of that block, and put on a node as that request writes it back. SHA-256 is taken to have no
collision among what the chains of these requests hash, and the model id to be shorter than a hash. -/
theorem matched_blocks_written [DecidableEq W] (m : Setup F) (s : State W F m.cfg) (run : Reachable m s)
    (distinct : Chain.NoCollision m.sha (Loadgen.hashed m.sha (s.results.map fun r => r.req)))
    (short : m.cfg.model.length < hashSize) (later earlier : List (Result m.cfg)) (r : Result m.cfg)
    (split : s.results = later ++ r :: earlier) :
    r.depth ≤ r.req.blocks.length ∧
      ∀ j < r.depth, ∃ r' ∈ earlier, r'.depth ≤ j ∧ r.req.Shares r'.req (j + 1) ∧
        ∃ b ∈ s.nodes.puts, b ∈ r'.req.writeBack m.sha r'.depth ∧ b.blockId = (r.req.raw m.sha).getD j [] := by
  have inv : Inv m s := run.invariant (Inv m) inv_init fun u a v inv taken _ => inv_step inv taken
  have justified := inv.results
  rw [split] at justified
  obtain ⟨bound, written⟩ := justified.split
  refine ⟨by rwa [← Request.length_ids], fun j below => ?_⟩
  obtain ⟨b, put, same, r', inside, back⟩ := written j below
  obtain ⟨j', id, deep, at', named, _⟩ := Request.mem_writeBack back
  have length : j < (r.req.ids m.sha).length := lt_of_lt_of_le below bound
  have at_ : (r.req.ids m.sha)[j]? = some id := by
    have raw := same.symm.trans named
    rw [Request.raw, List.getD_eq_getElem?_getD, List.getElem?_map, List.getElem?_eq_getElem length] at raw
    rw [List.getElem?_eq_getElem length]
    exact congrArg some (Subtype.ext raw)
  have own : r.req ∈ s.results.map fun r => r.req := by
    rw [split]
    exact List.mem_map.mpr ⟨r, by simp, rfl⟩
  have other : r'.req ∈ s.results.map fun r => r.req := by
    rw [split]
    exact List.mem_map.mpr ⟨r', by simp [inside], rfl⟩
  obtain ⟨rfl, shares⟩ := Request.shares_of_id distinct short own other at_ at'
  exact ⟨r', inside, deep, shares, b, put, back, same⟩

/-- One block of tokens for the tenant and one for the suffix, on one node. -/
def sampleMesh : Setup Int where
  nodes := Cachenode.sampleCluster
  cfg := {
    modelID := "m", blockSize := 1, positive := by decide, sysBlocks := 1, docBlocks := 0, payload := 1
    short := by decide, expensiveEvery := 0, expensiveMult := 1, tenantTokens := fun _ => [5], docTokens := fun _ => []
    tenantLength := fun _ => rfl, docLength := fun _ => rfl }
  sha := Chain.sampleSha
  rf := 1
  replicated := le_rfl
  emits := true

def samplePrompt (suffix : UInt32) : Request sampleMesh.cfg := ⟨0, 0, ⟨[suffix], rfl⟩⟩

def sampleMatch (suffix : UInt32) (k : Nat) : List (Action Unit sampleMesh.cfg) :=
  [.begin_ () (samplePrompt suffix), .read () (some (Gateway.sampleRing 1 ["b"])), .fanout () [], .arrive () "b",
    .other (.containsNext k), .other (.containsNext k), .answer () "b", .finishRound (), .collect (), .conclude () none]

/-- A prompt is written to the node, and another of the same tenant is asked for. -/
def sampleRun : List (Action Unit sampleMesh.cfg) :=
  .other (.boot "b") :: sampleMatch 7 0 ++
    [.receive () (some (Gateway.sampleRing 1 ["b"])), .receive () (some (Gateway.sampleRing 1 ["b"])),
      .close () (some (Gateway.sampleRing 1 ["b"])) [], .open_ () "b", .send () "b", .deliver 1, .send () "b",
      .deliver 1, .recv () "b", .done ()] ++ sampleMatch 8 2

theorem matched_blocks_written_sample : ∃ s : State Unit Int sampleMesh.cfg, Reachable sampleMesh s ∧
    s.results.map (fun r => r.depth) = [1, 0] ∧ ∀ later earlier r, s.results = later ++ r :: earlier → 0 < r.depth →
      ∃ r' ∈ earlier, r'.depth = 0 ∧ r.req.Shares r'.req 1 ∧
        ∃ b ∈ s.nodes.puts, b ∈ r'.req.writeBack sampleMesh.sha 0 := by
  obtain ⟨s, run, depths, prompts⟩ := Lib.reaches_of_check (step sampleMesh) (fun _ _ _ => True) sampleRun
    (init sampleMesh.cfg) (fun s => s.results.map (fun r => r.depth) = [1, 0] ∧
      s.results.map (fun r => r.req) = [samplePrompt 8, samplePrompt 7]) (by decide +kernel)
  have distinct : Chain.NoCollision sampleMesh.sha (Loadgen.hashed sampleMesh.sha (s.results.map fun r => r.req)) := by
    rw [prompts]
    decide +kernel
  refine ⟨s, run, depths, fun later earlier r split some_ => ?_⟩
  obtain ⟨r', inside, deep, shares, b, put, back, _⟩ := (matched_blocks_written sampleMesh s run distinct
    (by decide +kernel) later earlier r split).2 0 some_
  have first : r'.depth = 0 := Nat.le_zero.mp deep
  exact ⟨r', inside, first, shares, b, put, first ▸ back⟩

end PrefixMesh.Mesh
