import IorDfs.Spmd
import IorDfs.Namespace
import IorDfs.Session

/-!
# The Ordering Protocols: Create Around the Barrier, Destroy Before the Broadcast

Two operations use a collective to order engine calls of different ranks.

`DFS_Create` with one shared file lets rank 0 create it (`O_CREAT|O_EXCL`) before
`MPI_Barrier(testComm)`, and every other rank open it (`O_RDWR`) after the barrier.
§2 proves, over every interleaving of `N` workers and every engine answer, that rank 0
alone opens exclusively, each rank opens at most once, and every peer open, like every
passage through the barrier, comes after rank 0's exclusive open has returned; with
`filePerProc` every rank creates its own file, and all of them have once anyone passed
the barrier. `IorDfs.Barrier` adds that under succeeding calls the protocol is carried
out, and states it as one theorem, `dfsCreate_exclusive_create_protocol`.

`DFS_Finalize` lets rank 0 destroy the container and then broadcasts its status. The
broadcast orders the destroy before every rank's return from it, but nothing orders it
after the other ranks' unmount and close: `dfsFinalize_destroy_before_peer_close` is a
run in which rank 1 unmounts and closes after the destroy.

## Method

Each worker's events are a prefix of its branch's trace (`dfsCreate_run`,
`dfsFinalize_run`); an event of a prefix was preceded there by everything before it in
the trace (`mem_of_prefix_of_mem`); and a worker leaves a collective only after its
sources entered it (`Reachable.allowed`). Every ordering result below is these three
facts put together.
-/

namespace IorDfs

/-! ## §1 The traces of `DFS_Create` -/

/-- The events of a `DFS_Create` that goes through its whole branch: the creating branch
opens the leaf exclusively before the barrier, the other one opens it after. -/
def createTrace (creating : Bool) (dirName name : List Char) (r o : Reply) (x : Int) :
    List Ev :=
  .call (.lookup dirName .rdwr) r ::
    if creating then
      [.call (.dfsOpen (parentOf dirName r) name .createExcl) o, .enter (.barrier .test) 0,
        .leave (.barrier .test) x]
    else
      [.enter (.barrier .test) 0, .leave (.barrier .test) x,
        .call (.dfsOpen (parentOf dirName r) name .rdwr) o]

/-- Every run of `DFS_Create`, finished or not, is a prefix of its branch's trace. -/
theorem dfsCreate_run {rank : Nat} {filePerProc : Bool} {cwd : Option (List Char)}
    {path : List Char} {t : List Ev} {q : Ctl (Option Nat)}
    (h : WorkerRun (.run (dfsCreate rank filePerProc cwd path)) t q) :
    t = [] ∨ ∃ dirName name r o x, parseFilename cwd path = .ok (dirName, some name) ∧
      t <+: createTrace (filePerProc || rank = 0) dirName name r o x := by
  unfold dfsCreate at h
  split at h
  · exact .inl h.done_inv.1
  · exact .inl h.abort_inv.1
  rename_i dirName name hp
  rcases h.call_inv with ⟨rfl, -⟩ | ⟨r, t, rfl, h₁⟩
  · exact .inl rfl
  refine .inr ⟨dirName, name, r, ?_⟩
  simp only [derr] at h₁
  split_ifs at h₁ with hr hc
  · obtain ⟨rfl, -⟩ := h₁.done_inv; exact ⟨⟨0, 0⟩, 0, hp, ⟨_, rfl⟩⟩
  · simp only [createTrace, hc, if_true]
    rcases h₁.call_inv with ⟨rfl, -⟩ | ⟨o, t, rfl, h₂⟩
    · exact ⟨⟨0, 0⟩, 0, hp, ⟨_, rfl⟩⟩
    refine ⟨o, ?_⟩
    split_ifs at h₂
    · obtain ⟨rfl, -⟩ := h₂.done_inv; exact ⟨0, hp, ⟨_, rfl⟩⟩
    rcases h₂.coll_inv with ⟨rfl, -⟩ | ⟨rfl, -⟩ | ⟨x, t, rfl, h₃⟩
    · exact ⟨0, hp, ⟨_, rfl⟩⟩
    · exact ⟨0, hp, ⟨_, rfl⟩⟩
    · obtain ⟨rfl, -⟩ := h₃.done_inv; exact ⟨x, hp, ⟨_, rfl⟩⟩
  · simp only [createTrace, hc, if_false]
    rcases h₁.coll_inv with ⟨rfl, -⟩ | ⟨rfl, -⟩ | ⟨x, t, rfl, h₂⟩
    · exact ⟨⟨0, 0⟩, 0, hp, ⟨_, rfl⟩⟩
    · exact ⟨⟨0, 0⟩, 0, hp, ⟨_, rfl⟩⟩
    rcases h₂.call_inv with ⟨rfl, -⟩ | ⟨o, t, rfl, h₃⟩
    · exact ⟨⟨0, 0⟩, x, hp, ⟨_, rfl⟩⟩
    · obtain ⟨rfl, -⟩ := h₃.done_inv; exact ⟨o, x, hp, ⟨_, rfl⟩⟩

/-- The flags of a `dfs_open` event. -/
def Ev.openFlags : Ev → Option OpenFlags
  | .call (.dfsOpen _ _ flags) _ => some flags
  | _ => none

/-- The `dfs_open` calls of a worker, by their flags. -/
def opensOf (t : List Ev) : List OpenFlags := t.filterMap Ev.openFlags

/-- A worker of `DFS_Create` opens once, exclusively exactly on the creating branch. -/
theorem opensOf_createTrace (c : Bool) (dirName name : List Char) (r o : Reply) (x : Int) :
    opensOf (createTrace c dirName name r o x) = [if c then .createExcl else .rdwr] := by
  cases c <;> rfl

/-! ## §2 Every worker, in every reachable state -/

/-- A prefix of a singleton that holds its element is the singleton. -/
theorem eq_singleton_of_prefix {β : Type} {l : List β} {a : β} (h : l <+: [a]) (ha : a ∈ l) :
    l = [a] :=
  h.eq_of_length_le (List.length_pos_of_mem ha)

section Create

variable {N : Nat} {filePerProc : Bool} {cwd : Option (List Char)} {paths : Nat → List Char}
  {s : Sys (Option Nat)}

/-- A worker opens at most once, exclusively exactly when it is on the creating branch. -/
theorem Reachable.create_opens (h : Reachable N (fun i => dfsCreate i filePerProc cwd (paths i)) s)
    (i : Nat) :
    opensOf (proj i s.log) <+: [if filePerProc || i = 0 then .createExcl else .rdwr] := by
  rcases dfsCreate_run (h.runs i) with ht | ⟨dirName, name, r, o, x, -, ht⟩
  · simp [ht, opensOf]
  · rw [← opensOf_createTrace _ dirName name r o x]
    exact ht.filterMap _

/-- A worker opens the leaf of its own path, under the parent its lookup returned. -/
theorem Reachable.create_target (h : Reachable N (fun i => dfsCreate i filePerProc cwd (paths i)) s)
    {i : Nat} {parent : Option (List Char)} {name : List Char} {flags : OpenFlags} {o : Reply}
    (hm : (i, .call (.dfsOpen parent name flags) o) ∈ s.log) :
    ∃ dirName r, parseFilename cwd (paths i) = .ok (dirName, some name) ∧
      parent = parentOf dirName r := by
  rcases dfsCreate_run (h.runs i) with ht | ⟨dirName, name', r, _, _, hp, ht⟩
  · exact absurd (mem_proj.mpr hm) (ht ▸ List.not_mem_nil _)
  · have hm' := ht.subset (mem_proj.mpr hm)
    simp only [createTrace] at hm'
    split_ifs at hm' <;> simp at hm' <;> exact ⟨dirName, r, hm'.1.2.1 ▸ hp, hm'.1.1⟩

/-- A creating worker that has entered the barrier in a prefix of the log has opened
exclusively in that prefix. -/
theorem Reachable.create_entered_opened
    (h : Reachable N (fun i => dfsCreate i filePerProc cwd (paths i)) s) {j : Nat}
    (hc : (filePerProc || j = 0) = true) {pre : List (Nat × Ev)} (hpre : pre <+: s.log)
    (hs : sent j pre ≠ []) : .createExcl ∈ opensOf (proj j pre) := by
  obtain ⟨v, hv⟩ := List.exists_mem_of_ne_nil _ hs
  obtain ⟨c, hcv⟩ := mem_sent hv
  have hpj := (proj_mono j hpre)
  rcases dfsCreate_run (h.runs j) with ht | ⟨dirName, name, r, o, x, -, ht⟩
  · exact absurd (mem_proj.mpr (hpre.subset hcv)) (ht ▸ List.not_mem_nil _)
  rw [hc] at ht
  have he := mem_proj.mpr hcv
  have hce : c = .barrier .test ∧ v = 0 := by
    simpa [createTrace] using (hpj.trans ht).subset he
  obtain ⟨rfl, rfl⟩ := hce
  exact List.mem_filterMap.mpr ⟨_, mem_of_prefix_of_mem (A := [_, _]) (hpj.trans ht) he
    (by simp) (List.mem_cons_of_mem _ (List.mem_singleton_self _)), rfl⟩

/-- When a worker leaves the barrier, every creating worker has opened exclusively. -/
theorem Reachable.create_left_opened
    (h : Reachable N (fun i => dfsCreate i filePerProc cwd (paths i)) s)
    {pre post : List (Nat × Ev)} {i : Nat} {x : Int}
    (hlog : s.log = pre ++ (i, .leave (.barrier .test) x) :: post) {j : Nat} (hj : j < N)
    (hc : (filePerProc || j = 0) = true) : .createExcl ∈ opensOf (proj j pre) := by
  have hready := (h.allowed pre _ post hlog).1 j hj
  exact h.create_entered_opened hc (hlog ▸ List.prefix_append _ _)
    (List.ne_nil_of_length_pos (by omega))

/-- Once a worker has passed the barrier, every creating worker has opened exclusively. -/
theorem Reachable.create_passed_opened
    (h : Reachable N (fun i => dfsCreate i filePerProc cwd (paths i)) s) {i : Nat} {x : Int}
    (hx : (i, .leave (.barrier .test) x) ∈ s.log) {j : Nat} (hj : j < N)
    (hc : (filePerProc || j = 0) = true) : opensOf (proj j s.log) = [.createExcl] := by
  obtain ⟨pre, post, hlog⟩ := List.append_of_mem hx
  refine eq_singleton_of_prefix (by simpa [hc] using h.create_opens j) ?_
  exact ((proj_mono j (hlog ▸ List.prefix_append _ _)).filterMap _).subset
    (h.create_left_opened hlog hj hc)

/-- A worker opens `O_RDWR` only off the creating branch, after it has left the barrier. -/
theorem Reachable.create_rdwr_after_barrier
    (h : Reachable N (fun i => dfsCreate i filePerProc cwd (paths i)) s)
    {pre post : List (Nat × Ev)} {i : Nat} {e : Ev} (hlog : s.log = pre ++ (i, e) :: post)
    (he : e.openFlags = some .rdwr) : ∃ x, (i, .leave (.barrier .test) x) ∈ pre := by
  have hpre : proj i pre ++ [e] <+: proj i s.log := ⟨proj i post, by simp [hlog, proj]⟩
  rcases dfsCreate_run (h.runs i) with ht | ⟨dirName, name, r, o, x, -, ht⟩
  · simp [ht] at hpre
  have hmem := (hpre.trans ht).subset (List.mem_append_right _ (List.mem_singleton_self e))
  cases hc : (filePerProc || decide (i = 0)) <;> rw [hc] at ht hmem <;>
    simp only [createTrace, Bool.false_eq_true, if_false, if_true, List.mem_cons,
      List.mem_singleton, List.not_mem_nil, or_false] at hmem <;>
    rcases hmem with rfl | rfl | rfl | rfl <;>
    simp only [Ev.openFlags, Option.some.injEq, reduceCtorEq] at he
  have hx := mem_of_prefix_of_mem (A := [_, _, _]) (B := []) (hpre.trans ht)
    (List.mem_append_right _ (List.mem_singleton_self _)) (by simp)
    (List.mem_cons_of_mem _ (List.mem_cons_of_mem _ (List.mem_singleton_self _)))
  exact ⟨x, mem_proj.mp ((List.mem_append.mp hx).resolve_right (by simp))⟩

end Create

/-! ## §3 The traces of `DFS_Finalize` -/

/-- The events of a `DFS_Finalize` that returns: unmount and close, the destroy when this
rank destroys, the broadcast of the status, the disconnect and the finalisation. -/
def finalizeTrace (destroying : Bool) (cont : String) (r c u d : Reply) (x : Int) (p f : Reply) :
    List Ev :=
  .call .dfsUmount r :: .call .contClose c ::
    ((if destroying then [.call (.uuidParse cont) u, .call .contDestroy d] else []) ++
      [.enter (.bcast .world 0) (if destroying then d.rc else c.rc), .leave (.bcast .world 0) x,
        .call .poolDisconnect p, .call .daosFini f])

/-- Every run of `finalizeTail` is a prefix of the disconnect and the finalisation. -/
theorem finalizeTail_run {rc : Int} {t : List Ev} {q : Ctl Unit}
    (h : WorkerRun (.run (finalizeTail rc)) t q) :
    ∃ p f, t <+: [.call .poolDisconnect p, .call .daosFini f] := by
  have rest : ∀ {t}, WorkerRun (.run (.call .poolDisconnect fun _ =>
      dcheck rc "Failed to disconnect from pool" <|
      .call .daosFini fun r => dcheck r.rc "Failed to finalize DAOS" (.done ()))) t q →
      ∃ p f, t <+: [.call .poolDisconnect p, .call .daosFini f] := by
    intro t h₀
    rcases h₀.call_inv with ⟨rfl, -⟩ | ⟨p, t, rfl, h₁⟩
    · exact ⟨⟨0, 0⟩, ⟨0, 0⟩, List.nil_prefix⟩
    rcases h₁.dcheck_inv with ⟨rfl, -⟩ | h₁
    · exact ⟨p, ⟨0, 0⟩, ⟨_, rfl⟩⟩
    rcases h₁.call_inv with ⟨rfl, -⟩ | ⟨f, t, rfl, h₂⟩
    · exact ⟨p, ⟨0, 0⟩, ⟨_, rfl⟩⟩
    rcases h₂.dcheck_inv with ⟨rfl, -⟩ | h₂
    · exact ⟨p, f, List.prefix_rfl⟩
    · obtain ⟨rfl, -⟩ := h₂.done_inv; exact ⟨p, f, List.prefix_rfl⟩
  simp only [finalizeTail] at h
  by_cases hrc : rc ≠ 0
  · rw [if_pos hrc] at h
    rcases h.dcheck_inv with ⟨rfl, -⟩ | h₁
    · exact ⟨⟨0, 0⟩, ⟨0, 0⟩, List.nil_prefix⟩
    · exact rest h₁
  · rw [if_neg hrc] at h
    exact rest h

/-- Every run of `DFS_Finalize`, finished or not, is a prefix of its trace. -/
theorem dfsFinalize_run {rank : Nat} {o : DfsOptions} {t : List Ev} {q : Ctl Unit}
    (h : WorkerRun (.run (dfsFinalize rank o)) t q) :
    ∃ r c u d x p f, t <+: finalizeTrace (decide (rank = 0 ∧ o.destroy = true)) (o.cont.getD "")
      r c u d x p f := by
  have z : Reply := ⟨0, 0⟩
  have bcast : ∀ {t} v, WorkerRun (.run (.coll (.bcast .world 0) v finalizeTail)) t q →
      ∃ x p f, t <+: [.enter (.bcast .world 0) v, .leave (.bcast .world 0) x,
        .call .poolDisconnect p, .call .daosFini f] := by
    intro t v h
    rcases h.coll_inv with ⟨rfl, -⟩ | ⟨rfl, -⟩ | ⟨x, t, rfl, h'⟩
    · exact ⟨0, z, z, List.nil_prefix⟩
    · exact ⟨0, z, z, ⟨_, rfl⟩⟩
    · obtain ⟨p, f, hpf⟩ := finalizeTail_run h'
      exact ⟨x, p, f, (List.prefix_cons_inj _).mpr ((List.prefix_cons_inj _).mpr hpf)⟩
  rcases h.call_inv with ⟨rfl, -⟩ | ⟨r, t, rfl, h₁⟩
  · exact ⟨z, z, z, z, 0, z, z, List.nil_prefix⟩
  rcases h₁.dcheck_inv with ⟨rfl, -⟩ | h₁
  · exact ⟨r, z, z, z, 0, z, z, ⟨_, rfl⟩⟩
  rcases h₁.call_inv with ⟨rfl, -⟩ | ⟨c, t, rfl, h₂⟩
  · exact ⟨r, z, z, z, 0, z, z, ⟨_, rfl⟩⟩
  rcases h₂.dcheck_inv with ⟨rfl, -⟩ | h₂
  · exact ⟨r, c, z, z, 0, z, z, ⟨_, rfl⟩⟩
  by_cases hd : rank = 0 ∧ o.destroy = true
  · rw [if_pos hd] at h₂
    simp only [Prog.call_bind, Prog.done_bind] at h₂
    rcases h₂.call_inv with ⟨rfl, -⟩ | ⟨u, t, rfl, h₃⟩
    · exact ⟨r, c, z, z, 0, z, z, by simp [finalizeTrace, hd]⟩
    rcases h₃.call_inv with ⟨rfl, -⟩ | ⟨d, t, rfl, h₄⟩
    · exact ⟨r, c, u, z, 0, z, z, by simp [finalizeTrace, hd]⟩
    obtain ⟨x, p, f, hx⟩ := bcast _ h₄
    exact ⟨r, c, u, d, x, p, f, by simpa [finalizeTrace, hd] using hx⟩
  · rw [if_neg hd] at h₂
    obtain ⟨x, p, f, hx⟩ := bcast _ h₂
    exact ⟨r, c, z, z, x, p, f, by simpa [finalizeTrace, hd] using hx⟩

/-- A worker of `DFS_Finalize` contributes one value, its status, to one collective. -/
theorem sent_finalizeTrace (destroying : Bool) (cont : String) (r c u d : Reply) (x : Int)
    (p f : Reply) :
    (finalizeTrace destroying cont r c u d x p f).filterMap Ev.sent =
      [if destroying then d.rc else c.rc] := by
  cases destroying <;> rfl

/-! ## §4 The destroy and the broadcast -/

/-- Rank 0 unmounts, closes and destroys the container before rank 1 unmounts and closes
its replica of the handle: a reachable state of two workers, every engine call
succeeding. -/
theorem dfsFinalize_destroy_before_peer_close :
    ∃ s, Reachable 2 (fun i => dfsFinalize i ⟨none, none, none, some "c", true⟩) s ∧
      s.log = [(0, .call .dfsUmount ⟨0, 0⟩), (0, .call .contClose ⟨0, 0⟩),
        (0, .call (.uuidParse "c") ⟨0, 0⟩), (0, .call .contDestroy ⟨0, 0⟩),
        (1, .call .dfsUmount ⟨0, 0⟩), (1, .call .contClose ⟨0, 0⟩)] :=
  ⟨_, .step (.step (.step (.step (.step (.step .init
    (.mk (i := 0) (by decide) (.call ⟨0, 0⟩) trivial))
    (.mk (i := 0) (by decide) (.call ⟨0, 0⟩) trivial))
    (.mk (i := 0) (by decide) (.call ⟨0, 0⟩) trivial))
    (.mk (i := 0) (by decide) (.call ⟨0, 0⟩) trivial))
    (.mk (i := 1) (by decide) (.call ⟨0, 0⟩) trivial))
    (.mk (i := 1) (by decide) (.call ⟨0, 0⟩) trivial), rfl⟩

section Finalize

variable {N : Nat} {o : DfsOptions} {s : Sys Unit}

/-- Only a rank that destroys (rank 0, with `dfs.destroy`) calls `daos_cont_destroy`, and
only after its own unmount and close. -/
theorem Reachable.finalize_destroy (h : Reachable N (fun i => dfsFinalize i o) s)
    {pre post : List (Nat × Ev)} {i : Nat} {d : Reply}
    (hlog : s.log = pre ++ (i, .call .contDestroy d) :: post) :
    (i = 0 ∧ o.destroy = true) ∧ (∃ r, (i, .call .dfsUmount r) ∈ pre) ∧
      ∃ c, (i, .call .contClose c) ∈ pre := by
  obtain ⟨r, c, u, d', x, p, f, ht⟩ := dfsFinalize_run (h.runs i)
  have hpre : proj i pre ++ [.call .contDestroy d] <+: proj i s.log :=
    ⟨proj i post, by simp [hlog, proj]⟩
  have hd := List.mem_append_right (proj i pre) (List.mem_singleton_self (Ev.call .contDestroy d))
  have hmem := (hpre.trans ht).subset hd
  by_cases hi : i = 0 ∧ o.destroy = true
  · rw [decide_eq_true hi] at ht hmem
    obtain rfl : d = d' := by simpa [finalizeTrace] using hmem
    have before : ∀ y ∈ [Ev.call .dfsUmount r, .call .contClose c,
        .call (.uuidParse (o.cont.getD "")) u], y ≠ .call .contDestroy d → (i, y) ∈ pre :=
      fun y hy hne => mem_proj.mp ((List.mem_append.mp
        (mem_of_prefix_of_mem (hpre.trans ht) hd (by simp) hy)).resolve_right (by simpa using hne))
    exact ⟨hi, ⟨r, before _ (by simp) (by simp)⟩, c, before _ (by simp) (by simp)⟩
  · simp [finalizeTrace, hi] at hmem

/-- The order `DFS_Finalize` gives the destroy, in one state: only rank 0 destroys, after
its own unmount and close, and a worker leaves the status broadcast only after the
destroy, receiving the destroy's status. -/
structure DestroyOrdered (s : Sys Unit) : Prop where
  after_own_close : ∀ pre i d post, s.log = pre ++ (i, .call .contDestroy d) :: post →
    i = 0 ∧ (∃ r, (0, .call .dfsUmount r) ∈ pre) ∧ ∃ c, (0, .call .contClose c) ∈ pre
  before_broadcast : ∀ pre i x post, s.log = pre ++ (i, .leave (.bcast .world 0) x) :: post →
    ∃ d, (0, .call .contDestroy d) ∈ pre ∧ x = d.rc

/-- `DFS_Finalize` on `N` workers with `dfs.destroy` set, over every interleaving and every
engine answer. -/
theorem dfsFinalize_destroy_ordering (h : Reachable N (fun i => dfsFinalize i o) s)
    (hd : o.destroy = true) : DestroyOrdered s := by
  refine ⟨fun pre i d post hlog => ?_, fun pre i x post hlog => ?_⟩
  · obtain ⟨⟨rfl, -⟩, hr, hc⟩ := h.finalize_destroy hlog
    exact ⟨rfl, hr, hc⟩
  obtain ⟨hready, hx⟩ := h.allowed pre _ post hlog
  dsimp only at hready hx
  have hpre : pre <+: s.log := hlog ▸ List.prefix_append _ _
  have hsent : ∀ j, ∃ v, sent j pre <+: [v] := fun j => by
    obtain ⟨r, c, u, d, x, p, f, ht⟩ := dfsFinalize_run (h.runs j)
    exact ⟨_, sent_finalizeTrace _ _ r c u d x p f ▸
      ((proj_mono j hpre).trans ht).filterMap Ev.sent⟩
  obtain ⟨v, hv⟩ := hsent 0
  have h0 : sent 0 pre = [v] := hv.eq_of_length_le (Nat.zero_lt_of_lt (hready 0 rfl))
  obtain ⟨c, hc⟩ := mem_sent (h0 ▸ List.mem_singleton_self v)
  obtain ⟨r, c', u, d, x', p, f, ht⟩ := dfsFinalize_run (h.runs 0)
  rw [decide_eq_true ⟨rfl, hd⟩] at ht
  have ht' := (proj_mono 0 hpre).trans ht
  have he := mem_proj.mpr hc
  obtain ⟨rfl, rfl⟩ : c = .bcast .world 0 ∧ v = d.rc := by simpa [finalizeTrace] using ht'.subset he
  refine ⟨d, mem_proj.mp (mem_of_prefix_of_mem (A := [_, _, _, _]) (y := .call .contDestroy d)
    ht' he (by simp) (by simp)), ?_⟩
  obtain ⟨w, hw⟩ := hsent i
  have hi : (sent i pre).length - 1 = 0 := Nat.sub_eq_zero_of_le hw.length_le
  simp [hx, collResult, h0, hi]

end Finalize

theorem dfsFinalize_destroy_ordering_two_ranks :
    ∃ s, Reachable 2 (fun i => dfsFinalize i ⟨none, none, none, some "c", true⟩) s ∧
      (0, .call .contDestroy ⟨0, 0⟩) ∈ s.log ∧ (1, .leave (.bcast .world 0) 0) ∈ s.log ∧
      DestroyOrdered s := by
  have h : Reachable 2 (fun i => dfsFinalize i ⟨none, none, none, some "c", true⟩) _ :=
    .step (.step (.step (.step (.step (.step (.step (.step (.step (.step .init
      (.mk (i := 0) (by decide) (.call ⟨0, 0⟩) trivial))
      (.mk (i := 0) (by decide) (.call ⟨0, 0⟩) trivial))
      (.mk (i := 0) (by decide) (.call ⟨0, 0⟩) trivial))
      (.mk (i := 0) (by decide) (.call ⟨0, 0⟩) trivial))
      (.mk (i := 1) (by decide) (.call ⟨0, 0⟩) trivial))
      (.mk (i := 1) (by decide) (.call ⟨0, 0⟩) trivial))
      (.mk (i := 0) (by decide) .enter trivial))
      (.mk (i := 1) (by decide) .enter trivial))
      (.mk (i := 0) (by decide) (.leave 0) ⟨fun j (hj : j = 0) => by subst hj; decide, rfl⟩))
      (.mk (i := 1) (by decide) (.leave 0) ⟨fun j (hj : j = 0) => by subst hj; decide, rfl⟩)
  exact ⟨_, h, by simp, by simp, dfsFinalize_destroy_ordering h rfl⟩

end IorDfs
