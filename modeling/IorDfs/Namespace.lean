import IorDfs.Path

/-!
# The Namespace Operations

`DFS_Create`, `DFS_Open`, `DFS_Delete`, `DFS_Mkdir`, `DFS_Rmdir`, `DFS_Access`,
`DFS_Stat` (lines 391-476, 557-584, 646-775) and `DFS_GetFileSize` (597-638) as
programs of one worker.

Five of them share one shape, `leafOp`: resolve the path, `DERR`; look the parent
up, `DERR`; one namespace call on the leaf; return from `out:`. Each keeps its own
definition under its own name, as `leafOp` applied to its lookup flag, its call and
what its `out:` returns. `DFS_Create` (a rank-dependent branch around a barrier) and
`DFS_Access` (no `assert(name)`, `"."` mapped to the parent itself, no `DERR` on the
stat) keep their own bodies.

`DERR` jumps only on a *negative* status (`_rc < 0`), so a positive status from
`dfs_lookup` falls through with `parent` still NULL: `leafOp_run` says exactly which
calls a run issues, and `lookup_positive_status_reaches_namespace` shows
`DFS_Mkdir` and `DFS_Create` acting on the namespace root after a failed lookup.
`DFS_GetFileSize` hands its argument to `dfs_lookup` unresolved
(`getFileSize_lookup_unresolved`).

Releases (`free`, `dfs_release`) are not modelled: nothing returned depends on them.
-/

namespace IorDfs

/-! ## §1 The shared shape -/

/-- The parent `dfs_lookup` leaves in `parent`: written only on success, else NULL. -/
def parentOf (dirName : List Char) (r : Reply) : Option (List Char) :=
  if r.rc = 0 then some dirName else none

/-- The `out:` value of the operations returning a status:
`if (rc) return -1; return rc;`. -/
def statusOf (rc : Int) : Int :=
  if rc ≠ 0 then -1 else rc

/-- The shape five operations share. `fin rc obj` is what `out:` returns from the
last status and the object the namespace call opened. A failed `parse_filename`
jumps to `out:` (its statuses are negative, `parseFilename_error_neg`); the last
`DERR` jumps to `out:` or falls through to it, which is the same. -/
def leafOp {β : Type} (flag : OFlag) (op : Option (List Char) → List Char → Call)
    (fin : Int → Option Nat → β) (cwd : Option (List Char)) (path : List Char) : Prog β :=
  match parseFilename cwd path with
  | .error rc => .done (fin rc none)
  | .ok (_, none) => .abort .assertion
  | .ok (dirName, some name) =>
    .call (.lookup dirName flag) fun r =>
      derr r.rc (.done (fin r.rc none)) <|
        .call (op (parentOf dirName r) name) fun o => .done (fin o.rc o.obj)

/-- `DFS_Open`: open the leaf `O_RDWR`; the object, or NULL. -/
def dfsOpen (cwd : Option (List Char)) (testFileName : List Char) : Prog (Option Nat) :=
  leafOp .rdwr (fun parent name => .dfsOpen parent name .rdwr) (fun _ obj => obj) cwd
    testFileName

/-- `DFS_Delete`: `dfs_remove` of the leaf. -/
def dfsDelete (cwd : Option (List Char)) (testFileName : List Char) : Prog Unit :=
  leafOp .rdwr .remove (fun _ _ => ()) cwd testFileName

/-- `DFS_Mkdir`: `dfs_mkdir` of the leaf; `0` or `-1`. -/
def dfsMkdir (cwd : Option (List Char)) (path : List Char) : Prog Int :=
  leafOp .rdwr .mkdir (fun rc _ => statusOf rc) cwd path

/-- `DFS_Rmdir`: `dfs_remove` of the leaf; `0` or `-1`. -/
def dfsRmdir (cwd : Option (List Char)) (path : List Char) : Prog Int :=
  leafOp .rdwr .remove (fun rc _ => statusOf rc) cwd path

/-- `DFS_Stat`: look the parent up `O_RDONLY`, `dfs_stat` of the leaf; `0` or `-1`. -/
def dfsStat (cwd : Option (List Char)) (path : List Char) : Prog Int :=
  leafOp .rdonly (fun parent name => .stat parent (some name)) (fun rc _ => statusOf rc) cwd path

/-- Every run of a `leafOp` that returns. A failed parse returns at once; otherwise
the lookup is issued, and the namespace call follows exactly when the lookup status
is nonnegative, on the NULL parent when that status is positive. -/
theorem leafOp_run {β : Type} {flag : OFlag} {op : Option (List Char) → List Char → Call}
    {fin : Int → Option Nat → β} {cwd : Option (List Char)} {path : List Char}
    {t : List Ev} {b : β} (h : WorkerRun (.run (leafOp flag op fin cwd path)) t (.run (.done b))) :
    (∃ rc, parseFilename cwd path = .error rc ∧ t = [] ∧ b = fin rc none) ∨
    ∃ dirName name r, parseFilename cwd path = .ok (dirName, some name) ∧
      ((r.rc < 0 ∧ t = [.call (.lookup dirName flag) r] ∧ b = fin r.rc none) ∨
       (0 ≤ r.rc ∧ ∃ o, t = [.call (.lookup dirName flag) r, .call (op (parentOf dirName r) name) o] ∧
          b = fin o.rc o.obj)) := by
  unfold leafOp at h
  split at h
  · obtain ⟨rfl, h₀⟩ := h.done_inv
    cases h₀
    exact .inl ⟨_, ‹_›, rfl, rfl⟩
  · cases h.abort_inv.2
  · rename_i dirName name hp
    refine .inr ⟨dirName, name, ?_⟩
    rcases h.call_inv with ⟨-, h₀⟩ | ⟨r, t', rfl, h₁⟩
    · cases h₀
    refine ⟨r, hp, ?_⟩
    unfold derr at h₁
    split_ifs at h₁ with hr
    · obtain ⟨rfl, h₂⟩ := h₁.done_inv
      cases h₂
      exact .inl ⟨hr, rfl, rfl⟩
    · rcases h₁.call_inv with ⟨-, h₂⟩ | ⟨o, t'', rfl, h₂⟩
      · cases h₂
      obtain ⟨rfl, h₃⟩ := h₂.done_inv
      cases h₃
      exact .inr ⟨by omega, o, rfl, rfl⟩

/-! ## §2 `DFS_Create` and `DFS_Access` -/

/-- `DFS_Create`: with `filePerProc`, or on rank 0, create the leaf exclusively and
then join the barrier on `testComm`; every other rank joins the barrier first and
then opens the leaf `O_RDWR`. A failed exclusive open jumps past the barrier. -/
def dfsCreate (rank : Nat) (filePerProc : Bool) (cwd : Option (List Char))
    (testFileName : List Char) : Prog (Option Nat) :=
  match parseFilename cwd testFileName with
  | .error _ => .done none
  | .ok (_, none) => .abort .assertion
  | .ok (dirName, some name) =>
    .call (.lookup dirName .rdwr) fun r =>
      derr r.rc (.done none) <|
        if filePerProc || rank = 0 then
          .call (.dfsOpen (parentOf dirName r) name .createExcl) fun o =>
            derr o.rc (.done none) <|
              .coll (.barrier .test) 0 fun _ => .done o.obj
        else
          .coll (.barrier .test) 0 fun _ =>
            .call (.dfsOpen (parentOf dirName r) name .rdwr) fun o => .done o.obj

/-- `DFS_Access`: no `assert(name)`, a `"."` leaf stats the parent itself, and the
status of `dfs_stat` goes straight to `out:`. -/
def dfsAccess (cwd : Option (List Char)) (path : List Char) : Prog Int :=
  match parseFilename cwd path with
  | .error rc => .done (statusOf rc)
  | .ok (dirName, name) =>
    .call (.lookup dirName .rdwr) fun r =>
      derr r.rc (.done (statusOf r.rc)) <|
        .call (.stat (parentOf dirName r) (if name = some ['.'] then none else name)) fun o =>
          .done (statusOf o.rc)

/-- A positive `dfs_lookup` status (the engine's errno convention) passes `DERR`:
`DFS_Mkdir("/a/b")` then makes `b` under the NULL parent, i.e. the namespace root,
and reports success; `DFS_Create` on rank 0 creates `b` there and returns it. -/
theorem lookup_positive_status_reaches_namespace :
    WorkerRun (.run (dfsMkdir (some ['/']) "/a/b".toList))
      [.call (.lookup ['/', 'a'] .rdwr) ⟨2, 0⟩, .call (.mkdir none ['b']) ⟨0, 0⟩]
      (.run (.done 0)) ∧
    WorkerRun (.run (dfsCreate 0 false (some ['/']) "/a/b".toList))
      [.call (.lookup ['/', 'a'] .rdwr) ⟨2, 0⟩, .call (.dfsOpen none ['b'] .createExcl) ⟨0, 7⟩,
        .enter (.barrier .test) 0, .leave (.barrier .test) 0]
      (.run (.done (some 7))) :=
  ⟨.cons (.call _) (.cons (.call _) (.refl _)),
    .cons (.call _) (.cons (.call _) (.cons .enter (.cons (.leave _) (.refl _))))⟩

/-! ## §3 `DFS_GetFileSize` -/

/-- `DFS_GetFileSize`: look `testFileName` up as given, read its size, then all-reduce
it as a `long long` over `comm`: the sum with `filePerProc`, else the minimum and the
maximum, warning on rank 0 and taking the minimum when they differ. A failed lookup
or size read returns `-1` at once. -/
def dfsGetFileSize (rank : Nat) (filePerProc : Bool) (comm : Comm) (testFileName : List Char) :
    Prog Int :=
  .call (.lookup testFileName .rdonly) fun r =>
    if r.rc ≠ 0 then .done (-1) else
    .call (.getSize testFileName) fun g =>
      if g.rc ≠ 0 then .done (-1) else
      if filePerProc then
        .coll (.allreduce comm .sum) (toLongLong g.out) fun tmpSum => .done tmpSum
      else
        .coll (.allreduce comm .min) (toLongLong g.out) fun tmpMin =>
          .coll (.allreduce comm .max) (toLongLong g.out) fun tmpMax =>
            if tmpMin ≠ tmpMax then
              if rank = 0 then .warn "inconsistent file size by different tasks" (.done tmpMin)
              else .done tmpMin
            else .done (toLongLong g.out)

/-- For `P = "f"` in `/home`: `DFS_GetFileSize` looks up `"f"` itself, which read from
the namespace root names `/f`, while `DFS_Create` looks up `/home` and creates `f`
there, i.e. `/home/f`. -/
theorem getFileSize_lookup_unresolved (rank : Nat) (filePerProc : Bool) (comm : Comm) :
    (∃ k, dfsGetFileSize rank filePerProc comm ['f'] = .call (.lookup ['f'] .rdonly) k) ∧
    parseFilename (some "/home".toList) ['f'] = .ok ("/home".toList, some ['f']) ∧
    resolve [] ['f'] ≠ resolve [] ("/home".toList ++ '/' :: ['f']) :=
  ⟨⟨_, rfl⟩, by decide, by decide⟩

end IorDfs
