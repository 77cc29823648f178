import IorDfs.Protocol
import IorDfs.Query

/-!
# The Barrier of `DFS_Create`: No Deadlock While Every Call Succeeds

`dfsCreate_failure_leaves_peer_blocked` runs `DFS_Create` (lines 392-438) into a
deadlock: a rank whose lookup fails jumps past `MPI_Barrier(testComm)` while its peer
waits in it. This module proves the other half. When every engine call succeeds and
every rank's path has a leaf, no interleaving of `N` workers deadlocks: a schedule
brings every rank back from `DFS_Create` through its whole branch, each with the handle
its own open wrote (`dfsCreate_completes`).

The argument is `Reachable.finishes` of `IorDfs.Spmd`: `DFS_Create` is `Live` in
every reachable state, since under succeeding answers no `DERR` jumps and the only
way to end the run, the `assert` on a missing leaf, is excluded.

§3 puts the ordering facts of `IorDfs.Protocol` together with this liveness into the
creation protocol, `dfsCreate_exclusive_create_protocol`: its ordering over every
interleaving and every answer, and, under succeeding calls, that it is carried out, rank
0 (every rank, with `filePerProc`) creating exclusively and every other rank opening
`O_RDWR`. §4 reads the opens against a namespace state: in every interleaving, every
open a rank issues is on the object its path names, in a directory that exists.
-/

namespace IorDfs

/-! ## §1 One rank -/

section Worker

variable {rank : Nat} {filePerProc : Bool} {cwd : Option (List Char)}
  {path dirName name : List Char} {t : List Ev} {q : Ctl (Option Nat)}

theorem dfsCreate_safe (hp : parseFilename cwd path = .ok (dirName, some name)) :
    (dfsCreate rank filePerProc cwd path).SafeUnder (Succeeds rank) := by
  simp only [dfsCreate, hp]
  intro r hr
  simp only [Succeeds] at hr
  simp only [derr, hr, lt_self_iff_false, if_false]
  split
  · exact fun o ho => by simp [Succeeds] at ho; simp [derr, ho, Prog.SafeUnder]
  · exact fun _ _ _ => trivial

/-- A rank contributes once, to the barrier. -/
theorem sent_createTrace (creating : Bool) (dirName name : List Char) (r o : Reply) (x : Int) :
    (createTrace creating dirName name r o x).filterMap Ev.sent = [0] := by
  cases creating <;> rfl

/-- A run that returns, every call having succeeded, went through the whole branch,
barrier included, and returns the handle its open wrote. -/
theorem dfsCreate_done {v : Option Nat} (hp : parseFilename cwd path = .ok (dirName, some name))
    (h : WorkerRun (.run (dfsCreate rank filePerProc cwd path)) t (.run (.done v)))
    (ha : ∀ c r, Ev.call c r ∈ t → r.rc = 0) :
    ∃ r o x, t = createTrace (filePerProc || rank = 0) dirName name r o x ∧ v = some o.out := by
  simp only [dfsCreate, hp] at h
  obtain ⟨r, t, rfl, h₁⟩ := h.call_done
  have hr : r.rc = 0 := ha _ r (List.mem_cons_self _ _)
  simp only [derr, hr, lt_self_iff_false, if_false] at h₁
  by_cases hc : (filePerProc || decide (rank = 0)) = true
  · rw [if_pos hc] at h₁
    obtain ⟨o, t, rfl, h₂⟩ := h₁.call_done
    have ho : o.rc = 0 := ha (.dfsOpen (parentOf dirName r) name .createExcl) o (by simp)
    simp only [derr, ho, lt_self_iff_false, if_false] at h₂
    obtain ⟨x, t, rfl, h₃⟩ := h₂.coll_done
    obtain ⟨rfl, hv⟩ := h₃.done_inv
    refine ⟨r, o, x, by simp [createTrace, hc], ?_⟩
    rw [Prog.done.inj (Ctl.run.inj hv), Reply.obj, if_pos ho]
  · rw [if_neg hc] at h₁
    obtain ⟨x, t, rfl, h₂⟩ := h₁.coll_done
    obtain ⟨o, t, rfl, h₃⟩ := h₂.call_done
    have ho : o.rc = 0 := ha (.dfsOpen (parentOf dirName r) name .rdwr) o (by simp)
    obtain ⟨rfl, hv⟩ := h₃.done_inv
    refine ⟨r, o, x, by simp [createTrace, hc], ?_⟩
    rw [Prog.done.inj (Ctl.run.inj hv), Reply.obj, if_pos ho]

/-- `DERR` lets a `DFS_Create` run past its lookup only on a nonnegative status. -/
theorem dfsCreate_past_lookup {c : Call} {r : Reply} {e : Ev} {t : List Ev}
    (h : WorkerRun (.run (dfsCreate rank filePerProc cwd path)) (.call c r :: e :: t) q) :
    0 ≤ r.rc := by
  unfold dfsCreate at h
  split at h
  · cases h.done_inv.1
  · cases h.abort_inv.1
  rcases h.call_inv with ⟨h₀, -⟩ | ⟨r₁, t₁, h₀, h₁⟩
  · cases h₀
  simp only [List.cons.injEq, Ev.call.injEq] at h₀
  obtain ⟨⟨-, rfl⟩, rfl⟩ := h₀
  by_contra hneg
  rw [derr, if_pos (not_le.mp hneg)] at h₁
  cases h₁.done_inv.1

/-- A `DFS_Create` run that opened went through a lookup that `DERR` let pass, and
opened the leaf of its path under the parent that lookup returned. -/
theorem dfsCreate_open_inv {parent : Option (List Char)} {name' : List Char} {flags : OpenFlags}
    {o : Reply} (h : WorkerRun (.run (dfsCreate rank filePerProc cwd path)) t q)
    (hm : Ev.call (.dfsOpen parent name' flags) o ∈ t) :
    ∃ dirName r, parseFilename cwd path = .ok (dirName, some name') ∧
      Ev.call (.lookup dirName .rdwr) r ∈ t ∧ 0 ≤ r.rc ∧ parent = parentOf dirName r := by
  obtain ⟨dirName, name, r, o', x, hp, ht⟩ :=
    (dfsCreate_run h).resolve_left (by rintro rfl; cases hm)
  have hm' := ht.subset hm
  obtain ⟨t', rfl, -⟩ := (List.prefix_cons_iff.mp ht).resolve_left (by rintro rfl; cases hm)
  have hr : 0 ≤ r.rc := by
    rcases t' with _ | ⟨e, t'⟩
    · simp at hm
    · exact dfsCreate_past_lookup h
  simp only [createTrace] at hm'
  split_ifs at hm' <;> simp at hm' <;>
    exact ⟨dirName, r, hm'.1.2.1 ▸ hp, List.mem_cons_self _ _, hr, hm'.1.1⟩

end Worker

/-! ## §2 Every rank returns a handle -/

section Finish

variable {N : Nat} {filePerProc : Bool} {cwd : Option (List Char)} {paths : Nat → List Char}
  {s : Sys (Option Nat)}

/-- Every rank's path has a leaf. -/
def HasLeaves (N : Nat) (cwd : Option (List Char)) (paths : Nat → List Char) : Prop :=
  ∀ i < N, ∃ dirName name, parseFilename cwd (paths i) = .ok (dirName, some name)

/-- Under succeeding calls, a rank that is back from `DFS_Create` went through its whole
branch, barrier included, and holds the handle its open wrote. -/
theorem Reachable.create_done (hl : HasLeaves N cwd paths)
    (h : Reachable N (fun i => dfsCreate i filePerProc cwd (paths i)) s)
    (ha : AnsweredBy Succeeds s.log) {i : Nat} (hi : i < N) {v : Option Nat}
    (hv : s.ctl i = .run (.done v)) :
    ∃ dirName name r o x, parseFilename cwd (paths i) = .ok (dirName, some name) ∧
      proj i s.log = createTrace (filePerProc || i = 0) dirName name r o x ∧ v = some o.out := by
  obtain ⟨dirName, name, hp⟩ := hl i hi
  have hr := h.runs i
  rw [hv] at hr
  obtain ⟨r, o, x, ht, rfl⟩ := dfsCreate_done hp hr fun c r hm => ha i c r (mem_proj.mp hm)
  exact ⟨dirName, name, r, o, x, hp, ht, rfl⟩

/-- With every call succeeding and every path having a leaf, `DFS_Create` keeps `N`
workers live: none ends the run, each emits at most four events and enters the barrier
once, and once it has returned it has. -/
theorem Reachable.create_live (hl : HasLeaves N cwd paths)
    (h : Reachable N (fun i => dfsCreate i filePerProc cwd (paths i)) s)
    (ha : AnsweredBy Succeeds s.log) : Live N 1 4 s where
  no_abort i hi := by
    obtain ⟨dirName, name, hp⟩ := hl i hi
    exact (h.runs i).ne_abort_of_safeUnder (fun c r hm => ha i c r (mem_proj.mp hm))
      (dfsCreate_safe hp)
  sent_le i _ := by
    rcases dfsCreate_run (h.runs i) with ht | ⟨dirName, name, r, o, x, -, ht⟩
    · simp [sent, ht]
    · simpa [sent_createTrace] using (ht.filterMap Ev.sent).length_le
  sent_done i hi v hv := by
    obtain ⟨_, _, r, o, x, -, ht, -⟩ := h.create_done hl ha hi hv
    rw [sent, ht, sent_createTrace]
    rfl
  sources i _ c k hw j hj := by
    have hr := h.runs i
    rw [hw] at hr
    rcases hr.wait_entered with ⟨-, hq⟩ | ⟨t, v, ht⟩
    · cases hq
    have he : Ev.enter c v ∈ proj i s.log := ht ▸ List.mem_append_right _ (List.mem_singleton_self _)
    rcases dfsCreate_run (h.runs i) with ht' | ⟨dirName, name, r, o, x, -, ht'⟩
    · simp [ht'] at he
    have hc : c = .barrier .test := by
      have := ht'.subset he
      cases hcr : (filePerProc || decide (i = 0)) <;> simp_all [createTrace]
    subst hc
    exact hj
  length_le i _ := by
    rcases dfsCreate_run (h.runs i) with ht | ⟨dirName, name, r, o, x, -, ht⟩
    · simp [ht]
    · refine ht.length_le.trans ?_
      cases (filePerProc || decide (i = 0)) <;> simp [createTrace]

/-- A schedule brings every rank back from `DFS_Create`, every call succeeding. -/
theorem Reachable.create_finishes (hl : HasLeaves N cwd paths)
    (h : Reachable N (fun i => dfsCreate i filePerProc cwd (paths i)) s)
    (ha : AnsweredBy Succeeds s.log) :
    ∃ s', Relation.ReflTransGen (Step N) s s' ∧ AnsweredBy Succeeds s'.log ∧
      ∀ i < N, ∃ v, s'.ctl i = .run (.done v) :=
  h.finishes (fun i c => show ∃ r, Succeeds i c r from ⟨⟨0, 0⟩, rfl⟩)
    (fun _ h ha => h.create_live hl ha) ha

/-- `DFS_Create` on `N` workers, every call succeeding and every path having a leaf: from
every reachable state, a schedule brings every rank back from `DFS_Create` through its
whole branch, the barrier left, each with the handle its own open wrote. -/
theorem dfsCreate_completes (hl : HasLeaves N cwd paths)
    (h : Reachable N (fun i => dfsCreate i filePerProc cwd (paths i)) s)
    (ha : AnsweredBy Succeeds s.log) :
    ∃ s', Relation.ReflTransGen (Step N) s s' ∧ AnsweredBy Succeeds s'.log ∧
      ∀ i < N, ∃ dirName name r o x, parseFilename cwd (paths i) = .ok (dirName, some name) ∧
        proj i s'.log = createTrace (filePerProc || i = 0) dirName name r o x ∧
        s'.ctl i = .run (.done (some o.out)) := by
  obtain ⟨s', hs', ha', hdone⟩ := h.create_finishes hl ha
  refine ⟨s', hs', ha', fun i hi => ?_⟩
  obtain ⟨v, hv⟩ := hdone i hi
  obtain ⟨dirName, name, r, o, x, hp, ht, rfl⟩ := (h.steps hs').create_done hl ha' hi hv
  exact ⟨dirName, name, r, o, x, hp, ht, hv⟩

theorem dfsCreate_completes_shared_file :
    ∃ s', Relation.ReflTransGen (Step 2)
        ⟨fun i => .run (dfsCreate i false (some ['/']) ['/', 'f']), []⟩ s' ∧
      ∀ i < 2, ∃ r o x, proj i s'.log = createTrace (i = 0) ['/'] ['f'] r o x ∧
        s'.ctl i = .run (.done (some o.out)) := by
  have hl : HasLeaves 2 (some ['/']) fun _ => ['/', 'f'] := fun _ _ => ⟨['/'], ['f'], rfl⟩
  have h : Reachable 2 (fun i => dfsCreate i false (some ['/']) ((fun _ => ['/', 'f']) i))
      ⟨fun i => .run (dfsCreate i false (some ['/']) ['/', 'f']), []⟩ := .init
  have hp : parseFilename (some ['/']) ['/', 'f'] = .ok (['/'], some ['f']) := rfl
  obtain ⟨s', hs', -, hall⟩ :=
    dfsCreate_completes hl h fun _ _ _ hm => absurd hm (List.not_mem_nil _)
  refine ⟨s', hs', fun i hi => ?_⟩
  obtain ⟨dirName, name, r, o, x, hp', ht, hv⟩ := hall i hi
  rw [hp] at hp'
  cases hp'
  exact ⟨r, o, x, by simpa using ht, hv⟩

end Finish

/-! ## §3 The protocol

The ordering facts of `IorDfs.Protocol` §2, in every reachable state, and the liveness
of §2: under succeeding calls the protocol is carried out. -/

section Protocol

variable {N : Nat} {filePerProc : Bool} {cwd : Option (List Char)} {paths : Nat → List Char}
  {s : Sys (Option Nat)}

/-- The creation protocol on one shared file, in one state: rank 0 alone opens
exclusively, every rank opens at most once, and a peer's open, like any passage through
the barrier, comes after rank 0's exclusive open has returned. -/
structure SharedCreate (s : Sys (Option Nat)) : Prop where
  opens : ∀ i, opensOf (proj i s.log) <+: [if i = 0 then .createExcl else .rdwr]
  peer_after_create : ∀ pre i e post, s.log = pre ++ (i, e) :: post →
    e.openFlags = some .rdwr → .createExcl ∈ opensOf (proj 0 pre)
  barrier_after_create : ∀ i x, (i, .leave (.barrier .test) x) ∈ s.log →
    opensOf (proj 0 s.log) = [.createExcl]

/-- The creation protocol with a file per process, in one state: every rank opens at
most once, exclusively, the leaf of its own path; once anyone has passed the barrier,
all `N` have. -/
structure PerProcessCreate (N : Nat) (cwd : Option (List Char)) (paths : Nat → List Char)
    (s : Sys (Option Nat)) : Prop where
  opens : ∀ i, opensOf (proj i s.log) <+: [.createExcl]
  own_file : ∀ i parent name flags o, (i, .call (.dfsOpen parent name flags) o) ∈ s.log →
    ∃ dirName r, parseFilename cwd (paths i) = .ok (dirName, some name) ∧
      parent = parentOf dirName r
  barrier_after_creates : ∀ i x, (i, .leave (.barrier .test) x) ∈ s.log →
    ∀ j < N, opensOf (proj j s.log) = [.createExcl]

/-- The creation protocol carried out, from a state whose calls have all succeeded: a
schedule brings every rank back with a handle, and in every later state whose calls have
all succeeded and where every rank is back, rank 0, or with `filePerProc` every rank, has
opened exclusively once, and every other rank `O_RDWR` once. -/
structure CreateCarriedOut (N : Nat) (filePerProc : Bool) (s : Sys (Option Nat)) : Prop where
  returns : ∃ s', Relation.ReflTransGen (Step N) s s' ∧ AnsweredBy Succeeds s'.log ∧
    ∀ i < N, ∃ o, s'.ctl i = .run (.done (some o))
  opens_once : ∀ s', Relation.ReflTransGen (Step N) s s' → AnsweredBy Succeeds s'.log →
    (∀ i < N, ∃ v, s'.ctl i = .run (.done v)) →
    ∀ i < N, opensOf (proj i s'.log) = [if filePerProc || i = 0 then .createExcl else .rdwr]

/-- Under succeeding calls and paths with leaves, `DFS_Create` carries the protocol out
from every reachable state. -/
theorem Reachable.create_carried_out (hl : HasLeaves N cwd paths)
    (h : Reachable N (fun i => dfsCreate i filePerProc cwd (paths i)) s)
    (ha : AnsweredBy Succeeds s.log) : CreateCarriedOut N filePerProc s := by
  obtain ⟨s', hs', ha', hdone⟩ := h.create_finishes hl ha
  refine ⟨⟨s', hs', ha', fun i hi => ?_⟩, fun s' hs' ha' hdone i hi => ?_⟩ <;>
    obtain ⟨v, hv⟩ := hdone i hi <;>
    obtain ⟨_, _, r, o, x, -, ht, rfl⟩ := (h.steps hs').create_done hl ha' hi hv
  · exact ⟨o.out, hv⟩
  · rw [ht, opensOf_createTrace]

end Protocol

/-! ## §4 What the opens act on -/

section Target

variable {N : Nat} {filePerProc : Bool} {paths : Nat → List Char} {s : Sys (Option Nat)}

/-- `DFS_Create` on `N` workers sharing an absolute working directory, each with a
`PlainPath`, its lookups answered from a namespace state that reports a missing object
with a negative status: in every reachable state, every open a rank has issued is on a
directory that exists and on the leaf of its path, which together name the object its
path names. -/
theorem dfsCreate_opens_named_object (ns : NamespaceState) {enoent : Int} (he : enoent < 0)
    {cwd : List Char} (hcwd : cwd.head? = some '/') (hpaths : ∀ i < N, PlainPath (paths i))
    (h : Reachable N (fun i => dfsCreate i filePerProc (some cwd) (paths i)) s)
    (hlook : ∀ i p f r, (i, Ev.call (.lookup p f) r) ∈ s.log → r = ns.answer enoent (.lookup p f))
    {i : Nat} {parent : Option (List Char)} {name : List Char} {flags : OpenFlags} {o : Reply}
    (hm : (i, Ev.call (.dfsOpen parent name flags) o) ∈ s.log) :
    ∃ d, parent = some d ∧ name = basename (paths i) ∧ resolve [] d ∈ ns.objects ∧
      resolve [] d ++ [name] = resolve (resolve [] cwd) (paths i) := by
  obtain ⟨dirName, r, hp, hlk, hr, rfl⟩ := dfsCreate_open_inv (h.runs i) (mem_proj.mpr hm)
  obtain ⟨d, hp', hres⟩ := parseFilename_names_path hcwd (hpaths i (h.lt_of_mem hm))
  rw [hp'] at hp
  simp only [Except.ok.injEq, Prod.mk.injEq, Option.some.injEq] at hp
  obtain ⟨rfl, rfl⟩ := hp
  have hd : resolve [] d ∈ ns.objects := by
    by_contra hd
    rw [hlook i _ _ r (mem_proj.mp hlk), NamespaceState.answer, NamespaceState.found,
      if_neg hd] at hr
    exact absurd hr (not_le.mpr he)
  rw [hlook i _ _ r (mem_proj.mp hlk)]
  exact ⟨d, by simp [NamespaceState.answer, parentOf, hd], rfl, hd, hres⟩

theorem dfsCreate_opens_named_object_a_b :
    ∃ d, some ['/', 'a'] = some d ∧ ['b'] = basename "/a/b".toList ∧
      resolve [] d ∈ rootWithA.objects ∧
      resolve [] d ++ [['b']] = resolve (resolve [] ['/']) "/a/b".toList := by
  have h : Reachable 1 (fun i => dfsCreate i false (some ['/']) ((fun _ => "/a/b".toList) i)) _ :=
    .step (.step .init (.mk (i := 0) (by decide) (.call ⟨0, 0⟩) trivial))
      (.mk (i := 0) (by decide) (.call ⟨0, 7⟩) trivial)
  exact dfsCreate_opens_named_object rootWithA (show (-2 : Int) < 0 by decide) (by decide)
    (fun _ _ => by decide) h
    (by rintro i p f r (_ | ⟨_, _ | ⟨_, ⟨⟩⟩⟩); rfl)
    (List.mem_append_right _ (List.mem_singleton_self _))

end Target

end IorDfs
