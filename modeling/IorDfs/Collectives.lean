import IorDfs.Spmd
import IorDfs.Session
import IorDfs.Namespace

/-!
# Which Collectives a Worker Enters

MPI matches collectives by their order on a communicator, and a worker inside one
waits until its peers enter theirs. For an operation the driver calls on every rank,
every worker that returns must therefore have entered the same collectives in the same
order, whatever its own engine calls answered; a worker that ends the run (`DCHECK`,
`ERR`) is exempt, since the job is torn down with it.

## Layers

- **Judgement**: `CollSeq p cs`, every run of `p` that returns entered exactly `cs`.
  It is proved syntax-directed, one rule per constructor of `Prog` (`CollSeq.call`,
  `CollSeq.coll`, ...) and one for `Prog.bind`, so that a proof about a driver
  function follows the function's text.
- **Agreement**: `CollectivesAgree prog`, any two returning workers entered the same
  collectives; it follows from one `CollSeq` shared by all ranks (`CollSeq.agree`).
- **The driver**: `HandleDistribute`, `DFS_Init` and `DFS_Finalize` have a `CollSeq`
  that does not depend on the rank or on any engine answer: every failure there goes
  through `DCHECK` or `ERR`. `DFS_Create` and `DFS_GetFileSize` have none: `DERR` jumps
  past `MPI_Barrier(testComm)` and a failed lookup returns before `MPI_Allreduce`,
  and `dfsCreate_failure_leaves_peer_blocked` runs the interleaving semantics to a
  state in which a rank waits in the barrier for a peer that has returned.
-/

namespace IorDfs

/-! ## §1 The judgement -/

/-- Every run of `p` that returns entered exactly the collectives `cs`, in order. -/
def CollSeq {α : Type} (p : Prog α) (cs : List Coll) : Prop :=
  ∀ t a, WorkerRun (.run p) t (.run (.done a)) → collsOf t = cs

/-- Any two workers that return entered the same collectives, in the same order. -/
def CollectivesAgree {α : Type} (prog : Nat → Prog α) : Prop :=
  ∀ i j t t' a a', WorkerRun (.run (prog i)) t (.run (.done a)) →
    WorkerRun (.run (prog j)) t' (.run (.done a')) → collsOf t = collsOf t'

namespace CollSeq

variable {α β : Type} {cs cs₁ cs₂ : List Coll}

theorem done (a : α) : CollSeq (.done a) [] := by
  intro t b h
  rw [h.done_inv.1]; rfl

theorem abort (w : Abort) (cs : List Coll) : CollSeq (.abort w : Prog α) cs :=
  fun _ _ h => nomatch h.abort_inv.2

theorem call {c : Call} {k : Reply → Prog α} (h : ∀ r, CollSeq (k r) cs) :
    CollSeq (.call c k) cs := by
  intro t b hr
  rcases hr.call_inv with ⟨-, h'⟩ | ⟨r, t', rfl, h'⟩
  · cases h'
  · simpa using h r t' b h'

theorem coll {c : Coll} {v : Int} {k : Int → Prog α} (h : ∀ x, CollSeq (k x) cs) :
    CollSeq (.coll c v k) (c :: cs) := by
  intro t b hr
  rcases hr.coll_inv with ⟨-, h'⟩ | ⟨-, h'⟩ | ⟨x, t', rfl, h'⟩
  · cases h'
  · cases h'
  · simpa using h x t' b h'

theorem warn {m : String} {k : Prog α} (h : CollSeq k cs) : CollSeq (.warn m k) cs := by
  intro t b hr
  rcases hr.warn_inv with ⟨-, h'⟩ | ⟨t', rfl, h'⟩
  · cases h'
  · simpa using h t' b h'

theorem bind {p : Prog α} {f : α → Prog β} (hp : CollSeq p cs₁) (hf : ∀ a, CollSeq (f a) cs₂)
    (h : cs₁ ++ cs₂ = cs) : CollSeq (p.bind f) cs := by
  intro t b hr
  obtain ⟨t₁, t₂, a, rfl, h₁, h₂⟩ := hr.bind_done
  rw [collsOf_append, hp _ _ h₁, hf a _ _ h₂, h]

theorem ite {c : Prop} [Decidable c] {p q : Prog α} (hp : c → CollSeq p cs)
    (hq : ¬c → CollSeq q cs) : CollSeq (if c then p else q) cs := by
  split_ifs with h
  exacts [hp h, hq h]

theorem dcheck {rc : Int} {msg : String} {k : Prog α} (h : CollSeq k cs) :
    CollSeq (IorDfs.dcheck rc msg k) cs :=
  ite (fun _ => abort _ _) fun _ => h

/-- One sequence shared by every rank makes the ranks agree. -/
theorem agree {prog : Nat → Prog α} (h : ∀ i, CollSeq (prog i) cs) : CollectivesAgree prog :=
  fun i j _ _ _ _ hi hj => (h i _ _ hi).trans (h j _ _ hj).symm

end CollSeq

/-! ## §2 Session establishment and teardown agree -/

/-- `HandleDistribute` broadcasts twice from rank 0 on `MPI_COMM_WORLD`, on every rank:
the rank-dependent calls sit between the broadcasts and end the process on failure. -/
theorem handleDistribute_collSeq (rank : Nat) (type : HandleType) :
    CollSeq (handleDistribute rank type) [.bcast .world 0, .bcast .world 0] := by
  have rank0 : ∀ msg, CollSeq (if rank = 0 then
      .call (.local2global type) fun r => dcheck r.rc msg (.done (r.out : Int)) else .done 0) [] :=
    fun _ => .ite (fun _ => .call fun _ => .dcheck (.done _)) fun _ => .done _
  exact .ite (fun _ => .abort _ _) fun _ => .bind (rank0 _) (fun _ => .coll fun _ =>
    .call fun _ => .ite (fun _ => .abort _ _) fun _ => .bind (rank0 _) (fun _ => .coll fun _ =>
      .ite (fun _ => .call fun _ => .dcheck (.done _)) fun _ => .done _) rfl) rfl

/-- Rank 0's pool connection and container open enter no collective. -/
theorem connectPool_collSeq (derNonexist : Int) (pool svcl cont : String)
    (group : Option String) : CollSeq (connectPool derNonexist pool svcl cont group) [] :=
  .call fun _ => .dcheck <| .call fun _ => .dcheck <| .call fun _ =>
    .ite (fun _ => .abort _ _) fun _ => .call fun _ => .dcheck <| .call fun _ =>
      .bind (.ite (fun _ => .call fun _ => .ite (fun _ => .call fun _ => .done _) fun _ => .done _)
        fun _ => .done _) (fun _ => .dcheck (.done _)) rfl

/-- `DFS_Init` broadcasts four times on every rank that returns: twice for the pool
handle, twice for the container handle. -/
theorem dfsInit_collSeq (rank : Nat) (derNonexist : Int) (o : DfsOptions) :
    CollSeq (dfsInit rank derNonexist o) (List.replicate 4 (.bcast .world 0)) := by
  unfold dfsInit
  split
  · exact .call fun _ => .dcheck <|
      .bind (.ite (fun _ => connectPool_collSeq _ _ _ _ _) fun _ => .done _) (fun _ =>
        .bind (handleDistribute_collSeq _ _) (fun _ =>
          .bind (handleDistribute_collSeq _ _) (fun _ => .call fun _ => .dcheck (.done _)) rfl)
        rfl) rfl
  · exact .abort _ _

/-- After the broadcast, `DFS_Finalize` enters no collective. -/
theorem finalizeTail_collSeq (rc : Int) : CollSeq (finalizeTail rc) [] :=
  have rest : CollSeq (.call .poolDisconnect fun _ => dcheck rc "Failed to disconnect from pool" <|
      .call .daosFini fun r => dcheck r.rc "Failed to finalize DAOS" (.done ())) [] :=
    .call fun _ => .dcheck <| .call fun _ => .dcheck (.done _)
  .ite (fun _ => .dcheck rest) fun _ => rest

/-- `DFS_Finalize` broadcasts rank 0's status once, on every rank that returns. -/
theorem dfsFinalize_collSeq (rank : Nat) (o : DfsOptions) :
    CollSeq (dfsFinalize rank o) [.bcast .world 0] :=
  .call fun _ => .dcheck <| .call fun _ => .dcheck <|
    .bind (.ite (fun _ => .call fun _ => .call fun _ => .done _) fun _ => .done _)
      (fun _ => .coll finalizeTail_collSeq) rfl

/-- For every option set and every answer of every engine call, every rank that returns
from `DFS_Init` has entered four broadcasts from rank 0 on the world communicator, the
size and the bytes of each handle, and every rank that returns from `DFS_Finalize` one;
so the ranks agree on the collectives of both. -/
theorem session_collectives_agree (derNonexist : Int) (o : DfsOptions) :
    (∀ i, CollSeq (dfsInit i derNonexist o) (List.replicate 4 (.bcast .world 0))) ∧
      (∀ i, CollSeq (dfsFinalize i o) [.bcast .world 0]) ∧
      CollectivesAgree (fun i => dfsInit i derNonexist o) ∧
      CollectivesAgree (fun i => dfsFinalize i o) :=
  ⟨fun i => dfsInit_collSeq i derNonexist o, fun i => dfsFinalize_collSeq i o,
    CollSeq.agree fun i => dfsInit_collSeq i derNonexist o,
    CollSeq.agree fun i => dfsFinalize_collSeq i o⟩

/-! ## §3 `DFS_Create` and `DFS_GetFileSize` do not -/

/-- `DFS_Create("/f")` on two ranks sharing the file, where rank 1's `dfs_lookup`
fails: `DERR` takes rank 1 past `MPI_Barrier(testComm)` to `out:` and it returns NULL,
while rank 0, whose exclusive create succeeded, has entered the barrier; neither can
take another step. `DFS_GetFileSize` likewise: a rank whose lookup fails returns `-1`
without entering the two all-reduces a rank whose lookup succeeds enters. -/
theorem dfsCreate_failure_leaves_peer_blocked :
    (∃ s, Reachable 2 (fun i => dfsCreate i false (some ['/']) ['/', 'f']) s ∧
      s.ctl 1 = .run (.done none) ∧ (∃ k, s.ctl 0 = .wait (.barrier .test) k) ∧
      ∀ s', ¬ Step 2 s s') ∧
    ∃ t t', WorkerRun (.run (dfsGetFileSize 0 false .test ['f'])) t (.run (.done 5)) ∧
      WorkerRun (.run (dfsGetFileSize 1 false .test ['f'])) t' (.run (.done (-1))) ∧
      collsOf t = [.allreduce .test .min, .allreduce .test .max] ∧ collsOf t' = [] := by
  refine ⟨⟨_, .step (.step (.step (.step .init
    (.mk (i := 1) (by decide) (.call ⟨-2, 0⟩) trivial))
    (.mk (i := 0) (by decide) (.call ⟨0, 0⟩) trivial))
    (.mk (i := 0) (by decide) (.call ⟨0, 7⟩) trivial))
    (.mk (i := 0) (by decide) .enter trivial), ?_, ?_, ?_⟩,
    _, _, .cons (.call ⟨0, 0⟩) (.cons (.call ⟨0, 5⟩) (.cons .enter (.cons (.leave 5)
      (.cons .enter (.cons (.leave 5) (.refl _)))))), .cons (.call ⟨2, 0⟩) (.refl _), rfl, rfl⟩
  · rfl
  · exact ⟨_, rfl⟩
  intro _ h
  cases h with
  | @mk i e q hi hw ha =>
  obtain rfl | rfl : i = 0 ∨ i = 1 := by omega
  · cases hw
    exact Nat.lt_irrefl 0 (ha.1 1 (show 1 < 2 by decide))
  · cases hw

end IorDfs
