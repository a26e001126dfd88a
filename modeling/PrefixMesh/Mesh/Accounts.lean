import Mathlib.Algebra.BigOperators.Group.Finset.Piecewise
import Mathlib.Data.Fintype.Basic
import PrefixMesh.Mesh.Written

/-! The counters of the load generator over a run, against what its workers send. A worker
counts at the answer of its `Match` and sends afterwards, so between the two the blocks are
still with the worker, and a worker that stops takes them along. -/

namespace PrefixMesh.Mesh

open Gateway (MatchResponse)
open Loadgen (Metrics Request)

variable {W F : Type} {m : Setup F} {s t : State W F m.cfg}

/-- All that the requests with these answers have to write back. -/
def missedBlocks (m : Setup F) (results : List (Result m.cfg)) : List WireBlock :=
  results.flatMap fun r => r.req.writeBack m.sha r.depth

def fullyMatched (m : Setup F) (results : List (Result m.cfg)) : Nat :=
  results.countP fun r => decide ((r.req.ids m.sha).length = r.depth)

def Balanced (m : Setup F) (s : State W F m.cfg) : Prop :=
  s.metrics.Balanced (missedBlocks m s.results) (fullyMatched m s.results)

theorem fullyMatched_cons (r : Result m.cfg) (results : List (Result m.cfg)) : fullyMatched m (r :: results) =
    if (r.req.ids m.sha).length = r.depth then fullyMatched m results + 1 else fullyMatched m results := by
  rw [fullyMatched, List.countP_cons]
  by_cases all : (r.req.ids m.sha).length = r.depth
  · rw [if_pos (decide_eq_true all), if_pos all, fullyMatched]
  · rw [if_neg (by simpa using all), if_neg all, fullyMatched, Nat.add_zero]

def Phase.unsent {cfg : Loadgen.Config} : Phase cfg → List WireBlock
  | .writing _ rest _ => rest
  | _ => []

theorem answeredPhase_unsent (job : Job m.cfg) (resp : MatchResponse) :
    (answeredPhase m job resp).unsent = job.req.writeBack m.sha resp.matchedDepth.toNat := by
  rw [answeredPhase]
  split
  · rfl
  · refine (List.eq_nil_of_length_eq_zero ?_).symm
    rw [Request.length_writeBack]
    omega

section Counters

variable [DecidableEq W]

theorem respond_metrics (s : State W F m.cfg) (w : W) (job : Job m.cfg) (resp : MatchResponse) :
    (s.respond m w job resp).metrics = job.req.count m.sha resp.matchedDepth.toNat s.metrics := by
  unfold State.respond
  dsimp only
  split <;> rfl

theorem respond_uploaded (s : State W F m.cfg) (w : W) (job : Job m.cfg) (resp : MatchResponse) :
    (s.respond m w job resp).uploaded = s.uploaded := by
  unfold State.respond
  dsimp only
  split <;> rfl

theorem Balanced.respond (balanced : Balanced m s) {u : State W F m.cfg} (metrics : u.metrics = s.metrics)
    (results : u.results = s.results) (w : W) {job : Job m.cfg} {resp : MatchResponse}
    (short : resp.matchedDepth.toNat ≤ (job.req.ids m.sha).length) : Balanced m (u.respond m w job resp) := by
  rw [Balanced, respond_metrics, respond_results, metrics, results, fullyMatched_cons, missedBlocks, List.flatMap_cons]
  exact Metrics.Balanced.count balanced job.req short

theorem balanced_step {a : Action W m.cfg} (inv : Inv m s) (balanced : Balanced m s) (taken : step m s a = some t) :
    Balanced m t := by
  have effect := effect_of_step taken
  cases effect with
  | read w shown job attempt _ =>
    unfold State.read
    split
    · exact balanced.respond rfl rfl w (Nat.zero_le _)
    · split
      · exact balanced.respond rfl rfl w (Nat.zero_le _)
      · exact balanced
  | conclude w newer job attempt ring resp wrongEpoch at_ =>
    have here := inv.phases w
    rw [at_] at here
    have short := here.1
    rw [Request.raw, List.length_map] at short
    unfold State.conclude
    split
    · exact balanced
    · refine Balanced.respond balanced ?_ ?_ w short <;> rfl
  | arrive w job attempt ring replica round wrongEpoch pending node batch own _ _ _ =>
    unfold State.arrive
    split <;> exact balanced
  | receive w shown res b rest byOwner _ =>
    unfold State.receive
    split <;> exact balanced
  | _ => exact balanced

end Counters

section Sent

variable [Fintype W]

def State.outstanding {cfg : Loadgen.Config} (s : State W F cfg) (b : WireBlock) : Nat :=
  s.uploaded.count b + ∑ w, (s.phase w).unsent.count b

/-- As long as no worker has stopped, what has been missed has been sent or has still to be. -/
def Conserved (m : Setup F) (s : State W F m.cfg) : Prop :=
  (∀ w, s.phase w ≠ .stopped) → ∀ b, s.outstanding b = (missedBlocks m s.results).count b

theorem Conserved.perm (conserved : Conserved m s) (idle : ∀ w, s.phase w = .idle) :
    (missedBlocks m s.results).Perm s.uploaded := by
  refine List.perm_iff_count.mpr fun b => ?_
  have total := conserved (fun w => by simp [idle w]) b
  have nothing : ∑ w, (s.phase w).unsent.count b = 0 := by
    refine Finset.sum_eq_zero fun w _ => ?_
    rw [idle w]
    rfl
  rw [← total, State.outstanding, nothing, Nat.add_zero]

variable [DecidableEq W]

theorem sum_unsent_update {cfg : Loadgen.Config} (phase : W → Phase cfg) (w : W) (p : Phase cfg) (b : WireBlock) :
    ∑ v, (Function.update phase w p v).unsent.count b + (phase w).unsent.count b =
      ∑ v, (phase v).unsent.count b + p.unsent.count b := by
  have pointwise : ∀ v, (Function.update phase w p v).unsent.count b =
      Function.update (fun v => (phase v).unsent.count b) w (p.unsent.count b) v := by
    intro v
    exact Function.apply_update (fun _ q => q.unsent.count b) phase w p v
  rw [Finset.sum_congr rfl fun v _ => pointwise v, Finset.sum_update_of_mem (Finset.mem_univ w),
    Finset.sum_eq_add_sum_sdiff_singleton_of_mem (Finset.mem_univ w)]
  omega

theorem Conserved.move (conserved : Conserved m s) {w : W} {q p : Phase m.cfg} (more : List WireBlock)
    (new : List (Result m.cfg)) (at_ : s.phase w = q) (running : q ≠ .stopped)
    (phase : t.phase = Function.update s.phase w p) (uploaded : t.uploaded = more ++ s.uploaded)
    (results : t.results = new ++ s.results) (same : (more ++ p.unsent).Perm (missedBlocks m new ++ q.unsent)) :
    Conserved m t := by
  intro alive b
  have before : ∀ v, s.phase v ≠ .stopped := by
    intro v
    by_cases own : v = w
    · rwa [own, at_]
    · have after := alive v
      rwa [phase, Function.update_of_ne own] at after
  have counts := same.count_eq b
  have sums := sum_unsent_update s.phase w p b
  have total := conserved before b
  rw [List.count_append, List.count_append, missedBlocks] at counts
  rw [State.outstanding, missedBlocks] at total
  rw [State.outstanding, uploaded, results, phase, missedBlocks, List.flatMap_append, List.count_append,
    List.count_append]
  rw [at_] at sums
  omega

theorem Conserved.quiet (conserved : Conserved m s) {w : W} {q p : Phase m.cfg} (at_ : s.phase w = q)
    (running : q ≠ .stopped) (phase : t.phase = Function.update s.phase w p) (uploaded : t.uploaded = s.uploaded)
    (results : t.results = s.results) (same : p.unsent = q.unsent) : Conserved m t :=
  conserved.move [] [] at_ running phase uploaded results (same ▸ List.Perm.refl _)

theorem Conserved.respond (conserved : Conserved m s) {u : State W F m.cfg} {w : W} {q : Phase m.cfg} (job : Job m.cfg)
    (resp : MatchResponse) (at_ : s.phase w = q) (running : q ≠ .stopped) (nothing : q.unsent = [])
    (phase : u.phase = s.phase) (uploaded : u.uploaded = s.uploaded) (results : u.results = s.results) :
    Conserved m (u.respond m w job resp) := by
  have moved : (u.respond m w job resp).phase = Function.update s.phase w (answeredPhase m job resp) := by
    rw [respond_phase, phase]
  refine conserved.move [] [⟨job, resp⟩] at_ running moved ?_ ?_ ?_
  · rw [respond_uploaded, uploaded, List.nil_append]
  · rw [respond_results, results, List.singleton_append]
  · rw [List.nil_append, answeredPhase_unsent, nothing, List.append_nil, missedBlocks, List.flatMap_singleton]
    exact List.Perm.refl _

theorem conserved_step {a : Action W m.cfg} (conserved : Conserved m s) (taken : step m s a = some t) :
    Conserved m t := by
  cases effect_of_step taken with
  | begin_ w req at_ => exact conserved.quiet at_ (by simp) rfl rfl rfl rfl
  | read w shown job attempt at_ =>
    unfold State.read
    split
    · exact conserved.respond job _ at_ (by simp) rfl rfl rfl rfl
    · split
      · exact conserved.respond job _ at_ (by simp) rfl rfl rfl rfl
      · exact conserved.quiet at_ (by simp) rfl rfl rfl rfl
  | fanout w missing job attempt ring replica probe hits wrongEpoch at_ _ _ =>
    exact conserved.quiet at_ (by simp) rfl rfl rfl rfl
  | arrive w job attempt ring replica round wrongEpoch pending node batch own at_ _ _ =>
    unfold State.arrive
    split <;> exact conserved.quiet at_ (by simp) rfl rfl rfl rfl
  | answer w job attempt ring replica round wrongEpoch pending node batch k n present at_ _ _ =>
    exact conserved.quiet at_ (by simp) rfl rfl rfl rfl
  | fail w e job attempt ring replica round wrongEpoch pending p at_ _ =>
    exact conserved.quiet at_ (by simp) rfl rfl rfl rfl
  | finishRound w job attempt ring replica round wrongEpoch at_ => exact conserved.quiet at_ (by simp) rfl rfl rfl rfl
  | collect w job attempt ring replica probe hits wrongEpoch at_ _ =>
    exact conserved.quiet at_ (by simp) rfl rfl rfl rfl
  | conclude w newer job attempt ring resp wrongEpoch at_ =>
    unfold State.conclude
    split
    · exact conserved.quiet at_ (by simp) rfl rfl rfl rfl
    · refine conserved.respond job resp at_ (by simp) rfl ?_ ?_ ?_ <;> rfl
  | receive w shown res b rest byOwner at_ =>
    unfold State.receive
    dsimp only
    split
    · -- no ring: the worker stops
      intro alive
      exact absurd (Function.update_self _ _ _) (alive w)
    · exact conserved.move [b] [] at_ (by simp) rfl rfl rfl (List.Perm.refl _)
  | close w shown missing res byOwner at_ => exact conserved.quiet at_ (by simp) rfl rfl rfl rfl
  | open_ w res epoch streams node blocks own at_ _ _ => exact conserved.quiet at_ (by simp) rfl rfl rfl rfl
  | send w res epoch streams node b blocks k at_ _ => exact conserved.quiet at_ (by simp) rfl rfl rfl rfl
  | deliver => exact conserved
  | recv w res epoch streams node k n stored existing at_ _ _ _ => exact conserved.quiet at_ (by simp) rfl rfl rfl rfl
  | drop w node res epoch streams at_ => exact conserved.quiet at_ (by simp) rfl rfl rfl rfl
  | done w res epoch at_ => exact conserved.quiet at_ (by simp) rfl rfl rfl rfl
  | abort w =>
    intro alive
    exact absurd (Function.update_self _ _ _) (alive w)
  | other => exact conserved

/-- In every run of the mesh the full hits that the load generator reports are the requests that had nothing to write
back, and whenever no worker has a request under way and none has stopped, the other counters are exact, as 64-bit
numbers: the blocks requested are those counted as hits and those that the `PutBlocks` streams of the workers have
carried, and the cost requested is the cost saved and the cost of what the streams have carried. -/
theorem metrics_balanced (m : Setup F) (s : State W F m.cfg) (run : Reachable m s) :
    s.metrics.fullHits = UInt64.ofNat (s.results.countP fun r => (r.req.writeBack m.sha r.depth).isEmpty) ∧
      ((∀ w, s.phase w = .idle) →
        s.metrics.blocksRequested = s.metrics.blocksHit + UInt64.ofNat s.uploaded.length ∧
        s.metrics.costRequestedUS = s.metrics.costSavedUS + Loadgen.totalCost s.uploaded) := by
  have all : Inv m s ∧ Balanced m s ∧ Conserved m s := by
    refine run.invariant (fun s => Inv m s ∧ Balanced m s ∧ Conserved m s) ⟨inv_init, ⟨rfl, rfl, rfl⟩, ?_⟩
      fun u a v all taken _ => ?_
    · intro _ b
      refine (Nat.zero_add _).trans (Finset.sum_eq_zero fun w _ => ?_)
      rfl
    · exact ⟨inv_step all.1 taken, balanced_step all.1 all.2.1 taken, conserved_step all.2.2 taken⟩
  obtain ⟨inv, balanced, conserved⟩ := all
  refine ⟨balanced.fullHits.trans (congrArg UInt64.ofNat ?_), fun idle => ?_⟩
  · refine List.countP_congr fun r inside => ?_
    have short : r.depth ≤ (r.req.ids m.sha).length := by
      obtain ⟨later, earlier, split⟩ := List.append_of_mem inside
      exact (split ▸ inv.results : Justified m s.nodes.puts (later ++ r :: earlier)).split.1
    rw [decide_eq_true_eq, List.isEmpty_iff_length_eq_zero, Request.length_writeBack]
    omega
  · have sent := conserved.perm idle
    exact ⟨balanced.blocks.trans (by rw [sent.length_eq]), balanced.cost.trans (by rw [Loadgen.totalCost_perm sent])⟩

end Sent

/-- The miss of the second prompt is written back as well. -/
def sampleRunEnd : List (Action Unit sampleMesh.cfg) :=
  sampleRun ++ [.receive () (some (Gateway.sampleRing 1 ["b"])), .close () (some (Gateway.sampleRing 1 ["b"])) [],
    .open_ () "b", .send () "b", .deliver 3, .recv () "b", .done ()]

theorem metrics_balanced_sample : ∃ s : State Unit Int sampleMesh.cfg, Reachable sampleMesh s ∧
    s.uploaded.length = 3 ∧ s.metrics.blocksHit = 1 ∧ s.metrics.blocksRequested = 1 + 3 ∧
    s.metrics.costRequestedUS = 50 + Loadgen.totalCost s.uploaded := by
  -- the worker is between two requests if it can begin another one
  obtain ⟨s, run, next, three, hits, saved⟩ := Lib.reaches_of_check (step sampleMesh) (fun _ _ _ => True) sampleRunEnd
    (init sampleMesh.cfg) (fun s => (step sampleMesh s (.begin_ () (samplePrompt 7))).isSome = true ∧
      s.uploaded.length = 3 ∧ s.metrics.blocksHit = 1 ∧ s.metrics.costSavedUS = 50) (by decide +kernel)
  have resting : ∀ w, s.phase w = .idle := by
    intro w
    obtain ⟨t, taken⟩ := Option.isSome_iff_exists.mp next
    cases effect_of_step taken with
    | begin_ _ _ free => exact free
  obtain ⟨_, exact_⟩ := metrics_balanced sampleMesh s run
  obtain ⟨blocks, cost⟩ := exact_ resting
  rw [hits, three] at blocks
  rw [saved] at cost
  exact ⟨s, run, three, hits, blocks, cost⟩

end PrefixMesh.Mesh
