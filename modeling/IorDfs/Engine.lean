import Mathlib

/-!
# The DFS Driver's Calls, Collectives and Single-Worker Runs

`aiori-DFS.c` works against two collaborators: the DAOS client library (pool,
container and namespace calls, each answering a status and sometimes an
out-value) and MPI (barrier, broadcast, all-reduce). A driver function is modelled
as a `Prog`: a finite tree whose engine calls and collectives carry the rest of the
function as a continuation on what they answer. The macros of the source become
combinators: `DCHECK` is `dcheck`, `DERR` is `derr`, `ERR` is `Prog.abort (.err _)`.

## Layers

- **Interface**: `Call`, `Reply`, `Coll`, `Ev`, the vocabulary of every later module.
- **Programs**: `Prog`, with `Prog.bind` for the functions that call helpers
  (`DFS_Init` calls `HandleDistribute` twice).
- **One worker**: `WorkerStep` is one step of one worker, `WorkerRun` a sequence of
  them. A worker that meets a collective first *enters* it (its control point becomes
  `Ctl.wait`) and later *leaves* it with the collective's result; when it may leave is
  decided by the interleaving semantics of `IorDfs.Spmd`, so here the result is free.
  The inversion lemmas `WorkerRun.call_inv`, `WorkerRun.coll_inv`, ... are what every
  later proof about a driver function uses instead of unfolding `WorkerRun`.
-/

namespace IorDfs

/-! ## §1 Calls out of the driver -/

/-- `enum handleType` of `HandleDistribute`. -/
inductive HandleType
  | poolHandle
  | contHandle
  | arrayHandle
  deriving DecidableEq, Repr, Inhabited

/-- The access flag passed to `dfs_lookup`: `O_RDONLY` or `O_RDWR`. -/
inductive OFlag
  | rdonly
  | rdwr
  deriving DecidableEq, Repr, Inhabited

/-- The flags passed to `dfs_open`: `O_CREAT | O_RDWR | O_EXCL`, or `O_RDWR` alone. -/
inductive OpenFlags
  | createExcl
  | rdwr
  deriving DecidableEq, Repr, Inhabited

/-- A call whose answer the driver reads. Namespace calls name their parent by the
path it was looked up from; `none` is the NULL parent, which the engine reads as
the namespace root. -/
inductive Call
  | daosInit
  | uuidParse (s : String)
  | rankListParse (s : String)
  | poolConnect (group : Option String)
  | contOpen
  | contCreate
  | local2global (type : HandleType)
  | global2local (type : HandleType)
  /-- `malloc` of the global-handle buffer; a nonzero status is a NULL pointer. -/
  | malloc (size : Int)
  | dfsMount
  | dfsUmount
  | contClose
  | contDestroy
  | poolDisconnect
  | daosFini
  | lookup (path : List Char) (flag : OFlag)
  | dfsOpen (parent : Option (List Char)) (name : List Char) (flags : OpenFlags)
  | remove (parent : Option (List Char)) (name : List Char)
  | mkdir (parent : Option (List Char)) (name : List Char)
  | stat (parent : Option (List Char)) (name : Option (List Char))
  | getSize (path : List Char)
  deriving DecidableEq, Repr, Inhabited

/-- What a call answers: its status and the value written to its out-parameter
(a handle, a size, a buffer length). -/
structure Reply where
  rc : Int
  out : Nat
  deriving DecidableEq, Repr, Inhabited

/-- A call that succeeds is a reply of status 0 and any out-value. -/
theorem Reply.forall_rc_eq_zero {P : Reply → Prop} :
    (∀ r : Reply, r.rc = 0 → P r) ↔ ∀ out, P ⟨0, out⟩ :=
  ⟨fun h out => h ⟨0, out⟩ rfl, fun h ⟨_, out⟩ hr => by cases hr; exact h out⟩

/-- The handle an out-parameter holds after the call: it is written only on success. -/
def Reply.obj (r : Reply) : Option Nat :=
  if r.rc = 0 then some r.out else none

/-! ## §2 Collectives -/

/-- The communicators the driver uses: `MPI_COMM_WORLD` and the harness's `testComm`. -/
inductive Comm
  | world
  | test
  deriving DecidableEq, Repr, Inhabited

/-- `MPI_SUM`, `MPI_MIN`, `MPI_MAX`. -/
inductive ReduceOp
  | sum
  | min
  | max
  deriving DecidableEq, Repr, Inhabited

/-- A collective call, with what must agree across workers for it to match. -/
inductive Coll
  | barrier (comm : Comm)
  | bcast (comm : Comm) (root : Nat)
  | allreduce (comm : Comm) (op : ReduceOp)
  deriving DecidableEq, Repr, Inhabited

/-- The `long long` holding the low 64 bits of `n`: how `MPI_LONG_LONG_INT` reads a
`daos_size_t`, and how an `IOR_offset_t` reads it back. -/
def toLongLong (n : Int) : Int := (n + 2 ^ 63) % 2 ^ 64 - 2 ^ 63

/-! ## §3 Programs -/

/-- How a worker process ends the run early. -/
inductive Abort
  /-- `DCHECK` on a negative status: the message, then `exit(-1)`. -/
  | dcheck (msg : String)
  /-- `ERR(msg)`: the message, then `MPI_Abort`. -/
  | err (msg : String)
  /-- A bare `exit(-1)`. -/
  | exit
  /-- A failed `assert`. -/
  | assertion
  deriving DecidableEq, Repr, Inhabited

/-- A driver function: a tree over what the engine and the collectives answer. -/
inductive Prog (α : Type) where
  /-- The function returns `a`. -/
  | done (a : α)
  /-- The process ends the run. -/
  | abort (why : Abort)
  /-- An engine (or libc) call, then the rest of the function on its reply. -/
  | call (c : Call) (k : Reply → Prog α)
  /-- A collective contributing `v`, then the rest on the collective's result. -/
  | coll (c : Coll) (v : Int) (k : Int → Prog α)
  /-- `WARN(msg)`, then the rest. -/
  | warn (msg : String) (k : Prog α)

namespace Prog

variable {α β : Type}

/-- Run `p`, then `f` on its result. -/
def bind : Prog α → (α → Prog β) → Prog β
  | .done a, f => f a
  | .abort w, _ => .abort w
  | .call c k, f => .call c fun r => (k r).bind f
  | .coll c v k, f => .coll c v fun x => (k x).bind f
  | .warn m k, f => .warn m (k.bind f)

@[simp] theorem done_bind (a : α) (f : α → Prog β) : (Prog.done a).bind f = f a := rfl

@[simp] theorem abort_bind (w : Abort) (f : α → Prog β) :
    (Prog.abort w : Prog α).bind f = .abort w := rfl

@[simp] theorem call_bind (c : Call) (k : Reply → Prog α) (f : α → Prog β) :
    (Prog.call c k).bind f = .call c fun r => (k r).bind f := rfl

@[simp] theorem coll_bind (c : Coll) (v : Int) (k : Int → Prog α) (f : α → Prog β) :
    (Prog.coll c v k).bind f = .coll c v fun x => (k x).bind f := rfl

@[simp] theorem warn_bind (m : String) (k : Prog α) (f : α → Prog β) :
    (Prog.warn m k).bind f = .warn m (k.bind f) := rfl

end Prog

/-- `DCHECK(rc, msg)`: a negative status ends the process. -/
def dcheck {α : Type} (rc : Int) (msg : String) (k : Prog α) : Prog α :=
  if rc < 0 then .abort (.dcheck msg) else k

@[simp] theorem dcheck_zero {α : Type} (msg : String) (k : Prog α) : dcheck 0 msg k = k := rfl

@[simp] theorem dcheck_bind {α β : Type} (rc : Int) (msg : String) (k : Prog α) (f : α → Prog β) :
    (dcheck rc msg k).bind f = dcheck rc msg (k.bind f) := by
  unfold dcheck; split_ifs <;> rfl

/-- `DERR(rc, ...)`: a negative status jumps to the function's `out:` label. -/
def derr {α : Type} (rc : Int) (out k : Prog α) : Prog α :=
  if rc < 0 then out else k

/-! ## §4 One worker -/

/-- What a worker does, as seen by the rest of the system. -/
inductive Ev
  | call (c : Call) (r : Reply)
  | enter (c : Coll) (v : Int)
  | leave (c : Coll) (x : Int)
  | warn (msg : String)
  deriving DecidableEq, Repr, Inhabited

/-- The collective an event enters, if it enters one. -/
def Ev.entered : Ev → Option Coll
  | .enter c _ => some c
  | _ => none

/-- The value an event contributes to a collective, if it enters one. -/
def Ev.sent : Ev → Option Int
  | .enter _ v => some v
  | _ => none

/-- The value an event receives from a collective, if it leaves one. -/
def Ev.received : Ev → Option Int
  | .leave _ x => some x
  | _ => none

/-- The collectives a worker entered, in order. -/
def collsOf (t : List Ev) : List Coll := t.filterMap Ev.entered

@[simp] theorem collsOf_nil : collsOf [] = [] := rfl

@[simp] theorem collsOf_call (c : Call) (r : Reply) (t : List Ev) :
    collsOf (.call c r :: t) = collsOf t := rfl

@[simp] theorem collsOf_enter (c : Coll) (v : Int) (t : List Ev) :
    collsOf (.enter c v :: t) = c :: collsOf t := rfl

@[simp] theorem collsOf_leave (c : Coll) (x : Int) (t : List Ev) :
    collsOf (.leave c x :: t) = collsOf t := rfl

@[simp] theorem collsOf_warn (m : String) (t : List Ev) : collsOf (.warn m :: t) = collsOf t := rfl

@[simp] theorem collsOf_append (t t' : List Ev) : collsOf (t ++ t') = collsOf t ++ collsOf t' :=
  List.filterMap_append _ _ _

/-- A worker contributes once to each collective it enters. -/
theorem length_sent_eq_length_collsOf (t : List Ev) :
    (t.filterMap Ev.sent).length = (collsOf t).length := by
  induction t with
  | nil => rfl
  | cons e t ih => cases e <;> simp [Ev.sent, ih]

/-- A worker's control point: running a program, or inside a collective. -/
inductive Ctl (α : Type) where
  | run (p : Prog α)
  | wait (c : Coll) (k : Int → Prog α)

/-- How many collectives a control point is inside: one while it waits. -/
def Ctl.pending {α : Type} : Ctl α → Nat
  | .run _ => 0
  | .wait _ _ => 1

/-- One step of one worker; a collective's result `x` is left free here. -/
inductive WorkerStep {α : Type} : Ctl α → Ev → Ctl α → Prop
  | call {c k} (r : Reply) : WorkerStep (.run (.call c k)) (.call c r) (.run (k r))
  | warn {m k} : WorkerStep (.run (.warn m k)) (.warn m) (.run k)
  | enter {c v k} : WorkerStep (.run (.coll c v k)) (.enter c v) (.wait c k)
  | leave {c k} (x : Int) : WorkerStep (.wait c k) (.leave c x) (.run (k x))

/-- `WorkerRun q t q'`: from `q` a worker can emit `t` and reach `q'`. -/
inductive WorkerRun {α : Type} : Ctl α → List Ev → Ctl α → Prop
  | refl (q : Ctl α) : WorkerRun q [] q
  | cons {q e q' t q''} : WorkerStep q e q' → WorkerRun q' t q'' → WorkerRun q (e :: t) q''

/-- A step enters a collective exactly when it makes the worker wait, and leaves one exactly
when it ends a wait. -/
theorem WorkerStep.balance {α : Type} {q q' : Ctl α} {e : Ev} (h : WorkerStep q e q') :
    ([e].filterMap Ev.sent).length + q.pending = ([e].filterMap Ev.received).length + q'.pending := by
  cases h <;> rfl

theorem WorkerStep.leave_inv {α : Type} {q q' : Ctl α} {c : Coll} {x : Int}
    (h : WorkerStep q (.leave c x) q') : ∃ k, q = .wait c k ∧ q' = .run (k x) := by
  cases h; exact ⟨_, rfl, rfl⟩

namespace WorkerRun

variable {α : Type} {q q' q'' : Ctl α} {t : List Ev}

/-- A worker has entered as many collectives as it has left, and one more while it waits. -/
theorem balance (h : WorkerRun q t q') :
    (t.filterMap Ev.sent).length + q.pending = (t.filterMap Ev.received).length + q'.pending := by
  induction h with
  | refl => rfl
  | cons hs _ ih =>
    have := hs.balance
    rw [← List.singleton_append, List.filterMap_append, List.filterMap_append, List.length_append,
      List.length_append]
    omega

/-- A run splits at any point of its events. -/
theorem append_inv {t₁ t₂ : List Ev} (h : WorkerRun q (t₁ ++ t₂) q'') :
    ∃ q', WorkerRun q t₁ q' ∧ WorkerRun q' t₂ q'' := by
  induction t₁ generalizing q with
  | nil => exact ⟨q, .refl _, h⟩
  | cons e t₁ ih =>
    cases h with
    | cons hs h' =>
      obtain ⟨q', h₁, h₂⟩ := ih h'
      exact ⟨q', .cons hs h₁, h₂⟩

theorem snoc (h : WorkerRun q t q') {e : Ev} (hs : WorkerStep q' e q'') :
    WorkerRun q (t ++ [e]) q'' := by
  induction h with
  | refl => exact .cons hs (.refl _)
  | cons h₁ _ ih => exact .cons h₁ (ih hs)

theorem done_inv {a : α} (h : WorkerRun (.run (.done a)) t q) : t = [] ∧ q = .run (.done a) := by
  cases h with
  | refl => exact ⟨rfl, rfl⟩
  | cons hs => cases hs

theorem abort_inv {w : Abort} (h : WorkerRun (.run (.abort w)) t q) :
    t = [] ∧ q = .run (.abort w) := by
  cases h with
  | refl => exact ⟨rfl, rfl⟩
  | cons hs => cases hs

theorem call_inv {c : Call} {k : Reply → Prog α} (h : WorkerRun (.run (.call c k)) t q) :
    (t = [] ∧ q = .run (.call c k)) ∨
      ∃ r t', t = .call c r :: t' ∧ WorkerRun (.run (k r)) t' q := by
  cases h with
  | refl => exact .inl ⟨rfl, rfl⟩
  | cons hs h' => cases hs with | call r => exact .inr ⟨r, _, rfl, h'⟩

theorem warn_inv {m : String} {k : Prog α} (h : WorkerRun (.run (.warn m k)) t q) :
    (t = [] ∧ q = .run (.warn m k)) ∨ ∃ t', t = .warn m :: t' ∧ WorkerRun (.run k) t' q := by
  cases h with
  | refl => exact .inl ⟨rfl, rfl⟩
  | cons hs h' => cases hs with | warn => exact .inr ⟨_, rfl, h'⟩

theorem wait_inv {c : Coll} {k : Int → Prog α} (h : WorkerRun (.wait c k) t q) :
    (t = [] ∧ q = .wait c k) ∨ ∃ x t', t = .leave c x :: t' ∧ WorkerRun (.run (k x)) t' q := by
  cases h with
  | refl => exact .inl ⟨rfl, rfl⟩
  | cons hs h' => cases hs with | leave x => exact .inr ⟨x, _, rfl, h'⟩

theorem coll_inv {c : Coll} {v : Int} {k : Int → Prog α} (h : WorkerRun (.run (.coll c v k)) t q) :
    (t = [] ∧ q = .run (.coll c v k)) ∨ (t = [.enter c v] ∧ q = .wait c k) ∨
      ∃ x t', t = .enter c v :: .leave c x :: t' ∧ WorkerRun (.run (k x)) t' q := by
  cases h with
  | refl => exact .inl ⟨rfl, rfl⟩
  | cons hs h' =>
    cases hs with
    | enter =>
      rcases wait_inv h' with ⟨rfl, rfl⟩ | ⟨x, t', rfl, h''⟩
      · exact .inr (.inl ⟨rfl, rfl⟩)
      · exact .inr (.inr ⟨x, t', rfl, h''⟩)

/-- A `DCHECK` ends the run at once on a negative status, and is passed over otherwise. -/
theorem dcheck_cases {rc : Int} {msg : String} {k : Prog α}
    (h : WorkerRun (.run (dcheck rc msg k)) t q) :
    (rc < 0 ∧ t = [] ∧ q = .run (.abort (.dcheck msg))) ∨ (0 ≤ rc ∧ WorkerRun (.run k) t q) := by
  unfold dcheck at h
  split_ifs at h with hrc
  · exact .inl ⟨hrc, h.abort_inv⟩
  · exact .inr ⟨not_lt.mp hrc, h⟩

theorem dcheck_inv {rc : Int} {msg : String} {k : Prog α}
    (h : WorkerRun (.run (dcheck rc msg k)) t q) :
    (t = [] ∧ q = .run (.abort (.dcheck msg))) ∨ WorkerRun (.run k) t q :=
  h.dcheck_cases.imp (·.2) (·.2)

/-- A run that returns got an answer to every call on its way. -/
theorem call_done {c : Call} {k : Reply → Prog α} {a : α}
    (h : WorkerRun (.run (.call c k)) t (.run (.done a))) :
    ∃ r t', t = .call c r :: t' ∧ WorkerRun (.run (k r)) t' (.run (.done a)) :=
  h.call_inv.resolve_left fun ⟨_, h⟩ => nomatch h

/-- A run that returns entered and left every collective on its way. -/
theorem coll_done {c : Coll} {v : Int} {k : Int → Prog α} {a : α}
    (h : WorkerRun (.run (.coll c v k)) t (.run (.done a))) :
    ∃ x t', t = .enter c v :: .leave c x :: t' ∧ WorkerRun (.run (k x)) t' (.run (.done a)) :=
  (h.coll_inv.resolve_left fun ⟨_, h⟩ => nomatch h).resolve_left fun ⟨_, h⟩ => nomatch h

/-- A run that returns passed every `DCHECK` on its way. -/
theorem dcheck_done {rc : Int} {msg : String} {k : Prog α} {a : α}
    (h : WorkerRun (.run (dcheck rc msg k)) t (.run (.done a))) :
    0 ≤ rc ∧ WorkerRun (.run k) t (.run (.done a)) :=
  h.dcheck_cases.resolve_left fun ⟨_, _, h⟩ => nomatch h

/-- A run of `p.bind f` is a run of `p` that has not returned, and then has not returned
either; or a run of `p` that returned `a`, then one of `f a`. -/
theorem bind_inv {β : Type} {p : Prog α} {f : α → Prog β} {q : Ctl β}
    (h : WorkerRun (.run (p.bind f)) t q) :
    (∃ q', WorkerRun (.run p) t q' ∧ ∀ b, q ≠ .run (.done b)) ∨
      ∃ t₁ t₂ a, t = t₁ ++ t₂ ∧ WorkerRun (.run p) t₁ (.run (.done a)) ∧
        WorkerRun (.run (f a)) t₂ q := by
  induction p generalizing t with
  | done a => exact .inr ⟨[], t, a, rfl, .refl _, h⟩
  | abort w =>
    obtain ⟨rfl, rfl⟩ := h.abort_inv
    exact .inl ⟨_, .refl _, by simp⟩
  | call c k ih =>
    rcases h.call_inv with ⟨rfl, rfl⟩ | ⟨r, t', rfl, h'⟩
    · exact .inl ⟨_, .refl _, by simp⟩
    rcases ih r h' with ⟨q', h₁, hq⟩ | ⟨t₁, t₂, a, rfl, h₁, h₂⟩
    · exact .inl ⟨q', .cons (.call r) h₁, hq⟩
    · exact .inr ⟨.call c r :: t₁, t₂, a, rfl, .cons (.call r) h₁, h₂⟩
  | coll c v k ih =>
    rcases h.coll_inv with ⟨rfl, rfl⟩ | ⟨rfl, rfl⟩ | ⟨x, t', rfl, h'⟩
    · exact .inl ⟨_, .refl _, by simp⟩
    · exact .inl ⟨_, .cons .enter (.refl _), by simp⟩
    rcases ih x h' with ⟨q', h₁, hq⟩ | ⟨t₁, t₂, a, rfl, h₁, h₂⟩
    · exact .inl ⟨q', .cons .enter (.cons (.leave x) h₁), hq⟩
    · exact .inr ⟨.enter c v :: .leave c x :: t₁, t₂, a, rfl, .cons .enter (.cons (.leave x) h₁), h₂⟩
  | warn m k ih =>
    rcases h.warn_inv with ⟨rfl, rfl⟩ | ⟨t', rfl, h'⟩
    · exact .inl ⟨_, .refl _, by simp⟩
    rcases ih h' with ⟨q', h₁, hq⟩ | ⟨t₁, t₂, a, rfl, h₁, h₂⟩
    · exact .inl ⟨q', .cons .warn h₁, hq⟩
    · exact .inr ⟨.warn m :: t₁, t₂, a, rfl, .cons .warn h₁, h₂⟩

/-- A run of `p.bind f` that returns is a run of `p` that returns, then one of `f`. -/
theorem bind_done {β : Type} {p : Prog α} {f : α → Prog β} {b : β}
    (h : WorkerRun (.run (p.bind f)) t (.run (.done b))) :
    ∃ t₁ t₂ a, t = t₁ ++ t₂ ∧ WorkerRun (.run p) t₁ (.run (.done a)) ∧
      WorkerRun (.run (f a)) t₂ (.run (.done b)) :=
  h.bind_inv.resolve_left fun ⟨_, _, hq⟩ => hq b rfl

/-- A worker inside a collective got there by entering it, as its last event. -/
theorem wait_entered {c : Coll} {k : Int → Prog α} (h : WorkerRun q t (.wait c k)) :
    (t = [] ∧ q = .wait c k) ∨ ∃ t' v, t = t' ++ [.enter c v] := by
  induction t generalizing q with
  | nil => cases h; exact .inl ⟨rfl, rfl⟩
  | cons e t ih =>
    cases h with
    | cons hs h' =>
    rcases ih h' with ⟨rfl, rfl⟩ | ⟨t', v, rfl⟩
    · cases hs; exact .inr ⟨[], _, rfl⟩
    · exact .inr ⟨e :: t', v, rfl⟩

end WorkerRun

/-! ## §5 Programs that do not end the run, and one worker alone -/

/-- No path of `p` ends the run: every failure it meets is returned to the caller. -/
def Prog.NoAbort {α : Type} : Prog α → Prop
  | .done _ => True
  | .abort _ => False
  | .call _ k => ∀ r, (k r).NoAbort
  | .coll _ _ k => ∀ x, (k x).NoAbort
  | .warn _ k => k.NoAbort

/-- A control point from which the worker cannot end the run. -/
def Ctl.NoAbort {α : Type} : Ctl α → Prop
  | .run p => p.NoAbort
  | .wait _ k => ∀ x, (k x).NoAbort

namespace WorkerRun

variable {α : Type} {q q' : Ctl α} {t : List Ev}

theorem noAbort_step {e : Ev} (h : WorkerStep q e q') (hq : q.NoAbort) : q'.NoAbort := by
  cases h with
  | call r => exact hq r
  | warn => exact hq
  | enter => exact hq
  | leave x => exact hq x

theorem noAbort (h : WorkerRun q t q') (hq : q.NoAbort) : q'.NoAbort := by
  induction h with
  | refl => exact hq
  | cons hs _ ih => exact ih (noAbort_step hs hq)

/-- A worker whose program cannot end the run never reaches an `abort`. -/
theorem ne_abort {p : Prog α} (h : WorkerRun (.run p) t q) (hp : p.NoAbort) (w : Abort) :
    q ≠ .run (.abort w) := by
  rintro rfl
  exact h.noAbort hp

end WorkerRun

/-- No path of `p` ends the run while the engine answers each call as `ok` allows:
`Prog.NoAbort` for the answers a driver function is run against. -/
def Prog.SafeUnder {α : Type} (ok : Call → Reply → Prop) : Prog α → Prop
  | .done _ => True
  | .abort _ => False
  | .call c k => ∀ r, ok c r → (k r).SafeUnder ok
  | .coll _ _ k => ∀ x, (k x).SafeUnder ok
  | .warn _ k => k.SafeUnder ok

/-- A control point from which the worker cannot end the run under such answers. -/
def Ctl.SafeUnder {α : Type} (ok : Call → Reply → Prop) : Ctl α → Prop
  | .run p => p.SafeUnder ok
  | .wait _ k => ∀ x, (k x).SafeUnder ok

theorem Prog.SafeUnder.bind {α β : Type} {ok : Call → Reply → Prop} {p : Prog α}
    {f : α → Prog β} (hp : p.SafeUnder ok) (hf : ∀ a, (f a).SafeUnder ok) :
    (p.bind f).SafeUnder ok := by
  induction p with
  | done a => exact hf a
  | abort w => exact hp
  | call c k ih => exact fun r hr => ih r (hp r hr)
  | coll c v k ih => exact fun x => ih x (hp x)
  | warn m k ih => exact ih hp

theorem Prog.safeUnder_dcheck {α : Type} {ok : Call → Reply → Prop} {rc : Int} {msg : String}
    {k : Prog α} (hrc : 0 ≤ rc) (hk : k.SafeUnder ok) : (dcheck rc msg k).SafeUnder ok := by
  rwa [dcheck, if_neg (not_lt.mpr hrc)]

namespace WorkerRun

variable {α : Type} {q q' : Ctl α} {t : List Ev} {ok : Call → Reply → Prop}

theorem safeUnder_step {e : Ev} (h : WorkerStep q e q') (he : ∀ c r, e = .call c r → ok c r)
    (hq : q.SafeUnder ok) : q'.SafeUnder ok := by
  cases h with
  | call r => exact hq r (he _ _ rfl)
  | warn => exact hq
  | enter => exact hq
  | leave x => exact hq x

theorem safeUnder (h : WorkerRun q t q') (ht : ∀ c r, Ev.call c r ∈ t → ok c r)
    (hq : q.SafeUnder ok) : q'.SafeUnder ok := by
  induction h with
  | refl => exact hq
  | cons hs _ ih =>
    refine ih (fun c r hm => ht c r (List.mem_cons_of_mem _ hm)) (safeUnder_step hs ?_ hq)
    rintro c r rfl
    exact ht c r (List.mem_cons_self _ _)

/-- A worker whose calls were answered as `ok` allows never reaches an `abort` of a
program safe under them. -/
theorem ne_abort_of_safeUnder {p : Prog α} (h : WorkerRun (.run p) t q)
    (ht : ∀ c r, Ev.call c r ∈ t → ok c r) (hp : p.SafeUnder ok) (w : Abort) :
    q ≠ .run (.abort w) := by
  rintro rfl
  exact h.safeUnder ht hp

end WorkerRun

/-- Every run of `p` is at most `n` engine calls: `p` has no collective and no warning. -/
def Prog.CallsAtMost {α : Type} (n : Nat) : Prog α → Prop
  | .done _ => True
  | .abort _ => True
  | .call _ k => 0 < n ∧ ∀ r, (k r).CallsAtMost (n - 1)
  | .coll _ _ _ => False
  | .warn _ _ => False

namespace Prog.CallsAtMost

variable {α β : Type} {m n : Nat}

theorem mono {p : Prog α} (hp : p.CallsAtMost m) (h : m ≤ n) : p.CallsAtMost n := by
  induction p generalizing m n with
  | call c k ih => exact ⟨by have := hp.1; omega, fun r => ih r (hp.2 r) (by omega)⟩
  | coll => exact hp.elim
  | warn => exact hp.elim
  | _ => trivial

theorem bind {p : Prog α} {f : α → Prog β} (hp : p.CallsAtMost m) (hf : ∀ a, (f a).CallsAtMost n) :
    (p.bind f).CallsAtMost (m + n) := by
  induction p generalizing m with
  | done a => exact (hf a).mono (Nat.le_add_left n m)
  | abort w => trivial
  | call c k ih =>
    refine ⟨by have := hp.1; omega, fun r => ?_⟩
    have := hp.1
    exact (Nat.sub_add_comm (by omega : 1 ≤ m)) ▸ ih r (hp.2 r)
  | coll => exact hp.elim
  | warn => exact hp.elim

theorem dcheck {rc : Int} {msg : String} {k : Prog α} (hk : k.CallsAtMost n) :
    (IorDfs.dcheck rc msg k).CallsAtMost n := by
  unfold IorDfs.dcheck; split_ifs
  exacts [trivial, hk]

end Prog.CallsAtMost

/-- A run of a program of at most `n` calls: at most `n` events, every one a call. -/
theorem WorkerRun.callsAtMost {α : Type} {p : Prog α} {n : Nat} {t : List Ev} {q : Ctl α}
    (h : WorkerRun (.run p) t q) (hp : p.CallsAtMost n) :
    t.length ≤ n ∧ ∀ e ∈ t, ∃ c r, e = .call c r := by
  induction t generalizing p n with
  | nil => simp
  | cons e t ih =>
    cases h with
    | cons hs h' =>
      cases hs with
      | call r =>
        obtain ⟨hl, hc⟩ := ih h' (hp.2 r)
        have := hp.1
        exact ⟨by simp only [List.length_cons]; omega, by simpa using hc⟩
      | warn => exact hp.elim
      | enter => exact hp.elim

/-- A worker running a call, a warning or a collective entry can step on its own; its
call may take any answer. -/
theorem WorkerStep.exists_of_running {α : Type} {p : Prog α} (hd : ∀ a, p ≠ .done a)
    (hab : ∀ w, p ≠ .abort w) (answer : Call → Reply) :
    ∃ e q, WorkerStep (.run p) e q ∧ (∀ c x, e ≠ .leave c x) ∧
      ∀ c r, e = .call c r → r = answer c := by
  cases p with
  | done a => exact absurd rfl (hd a)
  | abort w => exact absurd rfl (hab w)
  | call c k => exact ⟨_, _, .call (answer c), by simp, by simp⟩
  | coll c v k => exact ⟨_, _, .enter, by simp, by simp⟩
  | warn m k => exact ⟨_, _, .warn, by simp, by simp⟩

theorem WorkerStep.exists_local {α : Type} {p : Prog α} (hp : p.NoAbort)
    (hd : ∀ a, p ≠ .done a) (answer : Call → Reply) :
    ∃ e q, WorkerStep (.run p) e q ∧ (∀ c x, e ≠ .leave c x) ∧
      ∀ c r, e = .call c r → r = answer c :=
  WorkerStep.exists_of_running hd (by rintro w rfl; exact hp) answer

/-- How a worker's function ends when it runs alone and the engine answers every call
by `answer`: it returns, it ends the run, or it stops in a collective, which it cannot
leave without its peers. -/
inductive Outcome (α : Type) where
  | returned (a : α)
  | aborted (why : Abort)
  | waits (c : Coll)
  deriving DecidableEq, Repr, Inhabited

/-- Run `p` alone, every engine call answered by `answer`. -/
def Prog.runWith {α : Type} (answer : Call → Reply) : Prog α → Outcome α
  | .done a => .returned a
  | .abort w => .aborted w
  | .call c k => (k (answer c)).runWith answer
  | .coll c _ _ => .waits c
  | .warn _ k => k.runWith answer

/-- The control point a worker is at when its function has ended with `o`. -/
def Outcome.Ends {α : Type} : Outcome α → Ctl α → Prop
  | .returned a, q => q = .run (.done a)
  | .aborted w, q => q = .run (.abort w)
  | .waits c, q => ∃ k, q = .wait c k

/-- `Prog.runWith` is one of the worker's runs: the one whose calls `answer` answers. -/
theorem Prog.runWith_run {α : Type} (answer : Call → Reply) (p : Prog α) :
    ∃ t q, (∀ c r, Ev.call c r ∈ t → r = answer c) ∧ WorkerRun (.run p) t q ∧
      (p.runWith answer).Ends q := by
  induction p with
  | done a => exact ⟨[], _, by simp, .refl _, rfl⟩
  | abort w => exact ⟨[], _, by simp, .refl _, rfl⟩
  | call c k ih =>
    obtain ⟨t, q, ht, hr, hq⟩ := ih (answer c)
    refine ⟨.call c (answer c) :: t, q, ?_, .cons (.call _) hr, hq⟩
    simp only [List.mem_cons, Ev.call.injEq]
    rintro c' r (⟨rfl, rfl⟩ | hm)
    exacts [rfl, ht c' r hm]
  | coll c v k => exact ⟨[.enter c v], _, by simp, .cons .enter (.refl _), k, rfl⟩
  | warn m k ih =>
    obtain ⟨t, q, ht, hr, hq⟩ := ih
    exact ⟨.warn m :: t, q, by simpa using ht, .cons .warn hr, hq⟩

end IorDfs
