import IorDfs.Collectives

/-!
# Handle Distribution: Every Rank Holds Rank 0's Handles

`DFS_Init` (lines 297-355) must leave every rank with a pool handle and a container
handle for the pool and container that rank 0 connected to. Rank 0 serialises each
handle with `daos_*_local2global`; `HandleDistribute` (149-200) broadcasts its size,
so that every rank can allocate a buffer, and then its bytes, which every other rank
turns back into a handle with `daos_*_global2local`.

This module proves, over every interleaving and every engine answer, that what each
rank receives is what rank 0 serialised, in order, and that with an engine that
answers every call with success no interleaving deadlocks: every rank returns.

## Layers

- **One worker**: `distTrace` and `initTrace` are the events of a `HandleDistribute`
  and of a `DFS_Init` that run to their end; `handleDistribute_run` and `dfsInit_run`
  say that every run is a prefix of one, all of it once the worker has returned.
- **`N` workers**: `dfsInit_handles_shared` holds in every reachable state. It rests on
  `Reachable.received_prefix`, the fact of the interleaving semantics that broadcasts
  from rank 0 deliver its contributions in order.
- **Liveness**: under succeeding answers `DFS_Init` is `Live` in every reachable
  state, and `Reachable.finishes` gives a schedule on which every rank returns.
- **Order**: `Connected` says what rank 0's connection did once it returned, and
  `dfsInit_connects_first` that no rank receives anything before it returned.
-/

namespace IorDfs

/-! ## §1 One `HandleDistribute` -/

/-- What one `HandleDistribute` reads: rank 0's answers to its two `local2global` calls
(the size of the global handle, then the handle), the two values every rank receives,
and the answers to `malloc` and to `global2local`. -/
structure DistAnswers where
  size : Reply
  global : Reply
  len : Int
  buf : Int
  alloc : Reply
  conv : Reply

/-- The events of a `HandleDistribute` of `type` on rank `rank` that runs to its end.
Rank 0 broadcasts what its two `local2global` calls wrote; every rank allocates the
size it receives; every other rank converts the buffer it receives. -/
def distTrace (rank : Nat) (type : HandleType) (d : DistAnswers) : List Ev :=
  if rank = 0 then
    [.call (.local2global type) d.size, .enter (.bcast .world 0) d.size.out,
      .leave (.bcast .world 0) d.len, .call (.malloc d.len) d.alloc,
      .call (.local2global type) d.global, .enter (.bcast .world 0) d.global.out,
      .leave (.bcast .world 0) d.buf]
  else
    [.enter (.bcast .world 0) 0, .leave (.bcast .world 0) d.len, .call (.malloc d.len) d.alloc,
      .enter (.bcast .world 0) 0, .leave (.bcast .world 0) d.buf,
      .call (.global2local type) d.conv]

/-- Answers for the steps a run has not reached. -/
def DistAnswers.none : DistAnswers := ⟨⟨0, 0⟩, ⟨0, 0⟩, 0, 0, ⟨0, 0⟩, ⟨0, 0⟩⟩

section Distribute

variable {rank : Nat} {type : HandleType} {t : List Ev} {q : Ctl Unit}

/-- Every run of `HandleDistribute` is a prefix of its trace, all of it once the worker
has returned. -/
theorem handleDistribute_run (htype : type ≠ .arrayHandle)
    (h : WorkerRun (.run (handleDistribute rank type)) t q) :
    ∃ d, t <+: distTrace rank type d ∧ ∀ u, q = .run (.done u) → t = distTrace rank type d := by
  rw [handleDistribute, if_neg htype] at h
  by_cases h0 : rank = 0
  · subst h0
    simp only [if_true, Prog.call_bind, dcheck_bind, Prog.done_bind, ne_eq, not_true_eq_false,
      if_false] at h
    rcases h.call_inv with ⟨rfl, rfl⟩ | ⟨a, t, rfl, h₁⟩
    · exact ⟨.none, List.nil_prefix, fun _ h => nomatch h⟩
    rcases h₁.dcheck_inv with ⟨rfl, rfl⟩ | h₂
    · exact ⟨{ DistAnswers.none with size := a }, ⟨_, rfl⟩, fun _ h => nomatch h⟩
    rcases h₂.coll_inv with ⟨rfl, rfl⟩ | ⟨rfl, rfl⟩ | ⟨x, t, rfl, h₃⟩
    · exact ⟨{ DistAnswers.none with size := a }, ⟨_, rfl⟩, fun _ h => nomatch h⟩
    · exact ⟨{ DistAnswers.none with size := a }, ⟨_, rfl⟩, fun _ h => nomatch h⟩
    rcases h₃.call_inv with ⟨rfl, rfl⟩ | ⟨m, t, rfl, h₄⟩
    · exact ⟨{ DistAnswers.none with size := a, len := x }, ⟨_, rfl⟩, fun _ h => nomatch h⟩
    by_cases hm : ¬m.rc = 0
    · rw [if_pos hm] at h₄
      obtain ⟨rfl, rfl⟩ := h₄.abort_inv
      exact ⟨{ DistAnswers.none with size := a, len := x, alloc := m }, ⟨_, rfl⟩,
        fun _ h => nomatch h⟩
    rw [if_neg hm] at h₄
    rcases h₄.call_inv with ⟨rfl, rfl⟩ | ⟨b, t, rfl, h₅⟩
    · exact ⟨{ DistAnswers.none with size := a, len := x, alloc := m }, ⟨_, rfl⟩,
        fun _ h => nomatch h⟩
    rcases h₅.dcheck_inv with ⟨rfl, rfl⟩ | h₆
    · exact ⟨{ DistAnswers.none with size := a, global := b, len := x, alloc := m },
        ⟨_, rfl⟩, fun _ h => nomatch h⟩
    rcases h₆.coll_inv with ⟨rfl, rfl⟩ | ⟨rfl, rfl⟩ | ⟨y, t, rfl, h₇⟩
    · exact ⟨{ DistAnswers.none with size := a, global := b, len := x, alloc := m },
        ⟨_, rfl⟩, fun _ h => nomatch h⟩
    · exact ⟨{ DistAnswers.none with size := a, global := b, len := x, alloc := m },
        ⟨_, rfl⟩, fun _ h => nomatch h⟩
    obtain ⟨rfl, rfl⟩ := h₇.done_inv
    exact ⟨⟨a, b, x, y, m, ⟨0, 0⟩⟩, List.prefix_refl _, fun _ _ => rfl⟩
  · simp only [h0, if_false, Prog.done_bind, ne_eq, not_false_eq_true, if_true] at h
    simp only [distTrace, h0, if_false]
    rcases h.coll_inv with ⟨rfl, rfl⟩ | ⟨rfl, rfl⟩ | ⟨x, t, rfl, h₁⟩
    · exact ⟨.none, List.nil_prefix, fun _ h => nomatch h⟩
    · exact ⟨.none, ⟨_, rfl⟩, fun _ h => nomatch h⟩
    rcases h₁.call_inv with ⟨rfl, rfl⟩ | ⟨m, t, rfl, h₂⟩
    · exact ⟨{ DistAnswers.none with len := x }, ⟨_, rfl⟩, fun _ h => nomatch h⟩
    by_cases hm : ¬m.rc = 0
    · rw [if_pos hm] at h₂
      obtain ⟨rfl, rfl⟩ := h₂.abort_inv
      exact ⟨{ DistAnswers.none with len := x, alloc := m }, ⟨_, rfl⟩, fun _ h => nomatch h⟩
    rw [if_neg hm] at h₂
    rcases h₂.coll_inv with ⟨rfl, rfl⟩ | ⟨rfl, rfl⟩ | ⟨y, t, rfl, h₃⟩
    · exact ⟨{ DistAnswers.none with len := x, alloc := m }, ⟨_, rfl⟩, fun _ h => nomatch h⟩
    · exact ⟨{ DistAnswers.none with len := x, alloc := m }, ⟨_, rfl⟩, fun _ h => nomatch h⟩
    rcases h₃.call_inv with ⟨rfl, rfl⟩ | ⟨g, t, rfl, h₄⟩
    · exact ⟨{ DistAnswers.none with len := x, buf := y, alloc := m }, ⟨_, rfl⟩,
        fun _ h => nomatch h⟩
    rcases h₄.dcheck_inv with ⟨rfl, rfl⟩ | h₅
    · exact ⟨⟨⟨0, 0⟩, ⟨0, 0⟩, x, y, m, g⟩, ⟨_, rfl⟩, fun _ h => nomatch h⟩
    obtain ⟨rfl, rfl⟩ := h₅.done_inv
    exact ⟨⟨⟨0, 0⟩, ⟨0, 0⟩, x, y, m, g⟩, List.prefix_refl _, fun _ _ => rfl⟩

/-- Rank 0 contributes what its `local2global` calls wrote; every other rank contributes
nothing but a placeholder. -/
theorem sent_distTrace (d : DistAnswers) :
    (distTrace rank type d).filterMap Ev.sent =
      if rank = 0 then [(d.size.out : Int), d.global.out] else [0, 0] := by
  unfold distTrace; split_ifs <;> rfl

end Distribute

/-! ## §2 One `DFS_Init` -/

/-- Rank 0's connection events: at most seven engine calls. -/
def Connects (conn : List Ev) : Prop :=
  conn.length ≤ 7 ∧ ∀ e ∈ conn, ∃ c r, e = .call c r

/-- What one `DFS_Init` reads: the answers to `daos_init` and to the mount, rank 0's
connection events, and the two distributions. -/
structure InitAnswers where
  init : Reply
  conn : List Ev
  pool : DistAnswers
  cont : DistAnswers
  mount : Reply

/-- Answers for the steps a run has not reached. -/
def InitAnswers.none : InitAnswers := ⟨⟨0, 0⟩, [], .none, .none, ⟨0, 0⟩⟩

/-- The events of a `DFS_Init` that runs to its end on rank `rank`: the DAOS runtime is
initialised, rank 0 connects, the pool handle and then the container handle are
distributed, and the namespace is mounted. -/
def initTrace (rank : Nat) (a : InitAnswers) : List Ev :=
  .call .daosInit a.init :: (if rank = 0 then a.conn else []) ++
    distTrace rank .poolHandle a.pool ++ distTrace rank .contHandle a.cont ++
    [.call .dfsMount a.mount]

section Init

variable {rank : Nat} {derNonexist : Int} {o : DfsOptions} {t : List Ev} {q : Ctl Unit}

theorem connectPool_callsAtMost (pool svcl cont : String) (group : Option String) :
    (connectPool derNonexist pool svcl cont group).CallsAtMost 7 := by
  refine ⟨by omega, fun _ => .dcheck ⟨by omega, fun _ => .dcheck ⟨by omega, fun _ => ?_⟩⟩⟩
  dsimp only
  split
  · trivial
  refine ⟨by omega, fun _ => .dcheck ⟨by omega, fun r => .bind (n := 0) ?_ fun _ => .dcheck trivial⟩⟩
  split
  · exact ⟨by omega, fun c => by dsimp only; split; exacts [⟨by omega, fun _ => trivial⟩, trivial]⟩
  · trivial

/-- Only rank 0 connects, in at most seven calls. -/
theorem connect_run {pool svcl cont : String} {group : Option String}
    (h : WorkerRun (.run (if rank = 0 then connectPool derNonexist pool svcl cont group
      else .done ())) t q) :
    Connects t ∧ (if rank = 0 then t else []) = t := by
  split_ifs at h ⊢ with h0
  · exact ⟨h.callsAtMost (connectPool_callsAtMost _ _ _ _), rfl⟩
  · obtain ⟨rfl, -⟩ := h.done_inv
    exact ⟨⟨le_of_eq_of_le rfl (Nat.zero_le 7), by simp⟩, rfl⟩

/-- What rank 0's connection has done once it returned (lines 307-348): parsed both
identifiers and the service ranks, connected to the pool of `group`, and opened the
container; when that open reported `-DER_NONEXIST`, created the container and, only if
the create returned 0, opened it again. The status the last `DCHECK` read is not
negative, so a create that failed with a positive status is passed over with no
container opened. -/
def Connected (derNonexist : Int) (pool svcl cont : String) (group : Option String)
    (conn : List Ev) : Prop :=
  ∃ p₁ p₂ l c o rest,
    conn = .call (.uuidParse pool) p₁ :: .call (.uuidParse cont) p₂ ::
      .call (.rankListParse svcl) l :: .call (.poolConnect group) c :: .call .contOpen o :: rest ∧
    0 ≤ p₁.rc ∧ 0 ≤ p₂.rc ∧ l.rc = 0 ∧ 0 ≤ c.rc ∧
    ((o.rc ≠ -derNonexist ∧ rest = [] ∧ 0 ≤ o.rc) ∨
      (o.rc = -derNonexist ∧ ∃ k,
        (k.rc = 0 ∧ ∃ o', rest = [.call .contCreate k, .call .contOpen o'] ∧ 0 ≤ o'.rc) ∨
        (0 < k.rc ∧ rest = [.call .contCreate k])))

/-- Every run of rank 0's connection that returns is `Connected`. -/
theorem connectPool_connected {pool svcl cont : String} {group : Option String} {u : Unit}
    (h : WorkerRun (.run (connectPool derNonexist pool svcl cont group)) t (.run (.done u))) :
    Connected derNonexist pool svcl cont group t := by
  obtain ⟨p₁, t, rfl, h₁⟩ := h.call_done
  obtain ⟨hp₁, h₂⟩ := h₁.dcheck_done
  obtain ⟨p₂, t, rfl, h₃⟩ := h₂.call_done
  obtain ⟨hp₂, h₄⟩ := h₃.dcheck_done
  obtain ⟨l, t, rfl, h₅⟩ := h₄.call_done
  by_cases hl : l.rc ≠ 0
  · rw [if_pos hl] at h₅
    nomatch h₅.abort_inv.2
  rw [if_neg hl] at h₅
  obtain ⟨c, t, rfl, h₆⟩ := h₅.call_done
  obtain ⟨hc, h₇⟩ := h₆.dcheck_done
  obtain ⟨o, t, rfl, h₈⟩ := h₇.call_done
  obtain ⟨t, t', rc, rfl, h₉, h₁₀⟩ := h₈.bind_done
  obtain ⟨hrc, h₁₁⟩ := h₁₀.dcheck_done
  obtain ⟨rfl, -⟩ := h₁₁.done_inv
  refine ⟨p₁, p₂, l, c, o, t, by simp, hp₁, hp₂, not_not.mp hl, hc, ?_⟩
  by_cases ho : o.rc = -derNonexist
  · rw [if_pos ho] at h₉
    obtain ⟨k, t, rfl, hk₁⟩ := h₉.call_done
    refine .inr ⟨ho, k, ?_⟩
    by_cases hk : k.rc = 0
    · rw [if_pos hk] at hk₁
      obtain ⟨o', t, rfl, hk₂⟩ := hk₁.call_done
      obtain ⟨rfl, ⟨⟩⟩ := hk₂.done_inv
      exact .inl ⟨hk, o', rfl, hrc⟩
    · rw [if_neg hk] at hk₁
      obtain ⟨rfl, ⟨⟩⟩ := hk₁.done_inv
      exact .inr ⟨lt_of_le_of_ne hrc (Ne.symm hk), rfl⟩
  · rw [if_neg ho] at h₉
    obtain ⟨rfl, ⟨⟩⟩ := h₉.done_inv
    exact .inl ⟨ho, rfl, hrc⟩

/-- A run that has reached a part of the function has all of the parts before it. -/
theorem prefix_append_append {β : Type} {t T : List β} (h : t <+: T) (A R : List β) :
    A ++ t <+: A ++ T ++ R := by
  rw [List.append_assoc]
  exact (List.prefix_append_right_inj A).mpr (h.trans (List.prefix_append T R))

/-- Every run of `DFS_Init` is a prefix of its trace, all of it once the worker has
returned. With an option missing, the worker ends the run before any event. -/
theorem dfsInit_run (h : WorkerRun (.run (dfsInit rank derNonexist o)) t q) :
    ∃ a : InitAnswers, Connects a.conn ∧ t <+: initTrace rank a ∧
      ∀ u, q = .run (.done u) → t = initTrace rank a := by
  have hnil : Connects [] := ⟨Nat.zero_le 7, by simp⟩
  unfold dfsInit at h
  split at h
  swap
  · obtain ⟨rfl, rfl⟩ := h.abort_inv
    exact ⟨.none, hnil, List.nil_prefix, by simp⟩
  rcases h.call_inv with ⟨rfl, rfl⟩ | ⟨r, t, rfl, h₁⟩
  · exact ⟨.none, hnil, List.nil_prefix, by simp⟩
  rcases h₁.dcheck_inv with ⟨rfl, rfl⟩ | h₂
  · exact ⟨{ InitAnswers.none with init := r }, hnil, by simp [initTrace], by simp⟩
  rcases h₂.bind_inv with ⟨q', h₃, hq⟩ | ⟨c, t, _, rfl, h₃, h₄⟩
  · obtain ⟨hc, hc0⟩ := connect_run h₃
    refine ⟨{ InitAnswers.none with init := r, conn := t }, hc, ?_, fun u hu => absurd hu (hq u)⟩
    simp [initTrace, hc0]
  obtain ⟨hc, hc0⟩ := connect_run h₃
  rcases h₄.bind_inv with ⟨q', h₅, hq⟩ | ⟨dp, t, _, rfl, h₅, h₆⟩
  · obtain ⟨d, hd, -⟩ := handleDistribute_run (by decide) h₅
    refine ⟨{ InitAnswers.none with init := r, conn := c, pool := d }, hc, ?_,
      fun u hu => absurd hu (hq u)⟩
    simpa [initTrace, hc0, List.append_assoc] using
      prefix_append_append (prefix_append_append hd [] _) c []
  obtain ⟨d, -, hd⟩ := handleDistribute_run (by decide) h₅
  obtain rfl := hd () rfl
  rcases h₆.bind_inv with ⟨q', h₇, hq⟩ | ⟨dc, t, _, rfl, h₇, h₈⟩
  · obtain ⟨d', hd', -⟩ := handleDistribute_run (by decide) h₇
    refine ⟨{ InitAnswers.none with init := r, conn := c, pool := d, cont := d' }, hc, ?_,
      fun u hu => absurd hu (hq u)⟩
    simpa [initTrace, hc0, List.append_assoc] using
      prefix_append_append (prefix_append_append hd' [] _) (c ++ distTrace rank .poolHandle d) []
  obtain ⟨d', -, hd'⟩ := handleDistribute_run (by decide) h₇
  obtain rfl := hd' () rfl
  have hfull : ∀ mt, initTrace rank ⟨r, c, d, d', mt⟩ =
      .call .daosInit r :: c ++ distTrace rank .poolHandle d ++ distTrace rank .contHandle d' ++
        [.call .dfsMount mt] := by
    intro mt; rw [initTrace, hc0]
  rcases h₈.call_inv with ⟨rfl, rfl⟩ | ⟨mt, t, rfl, h₉⟩
  · exact ⟨⟨r, c, d, d', ⟨0, 0⟩⟩, hc, by rw [hfull]; simp, by simp⟩
  rcases h₉.dcheck_inv with ⟨rfl, rfl⟩ | h₁₀
  · exact ⟨⟨r, c, d, d', mt⟩, hc, by rw [hfull]; simp, by simp⟩
  obtain ⟨rfl, rfl⟩ := h₁₀.done_inv
  exact ⟨⟨r, c, d, d', mt⟩, hc, by rw [hfull]; simp, fun _ _ => by rw [hfull]; simp⟩

/-- What rank 0 serialises: the size and the bytes of its pool handle, then of its
container handle. -/
def handleValues (a : InitAnswers) : List Int :=
  [a.pool.size.out, a.pool.global.out, a.cont.size.out, a.cont.global.out]

/-- What a rank receives: the two sizes and the two handles. -/
def receivedValues (a : InitAnswers) : List Int := [a.pool.len, a.pool.buf, a.cont.len, a.cont.buf]

theorem filterMap_conn_eq_nil {β : Type} {conn : List Ev} (hc : Connects conn) {f : Ev → Option β}
    (hf : ∀ c r, f (.call c r) = none) : conn.filterMap f = [] :=
  List.filterMap_eq_nil_iff.mpr fun e he => by obtain ⟨c, r, rfl⟩ := hc.2 e he; exact hf c r

/-- Rank 0 contributes what it serialised, every other rank placeholders. -/
theorem sent_initTrace {a : InitAnswers} (hc : Connects a.conn) :
    (initTrace rank a).filterMap Ev.sent = if rank = 0 then handleValues a else [0, 0, 0, 0] := by
  have hconn := filterMap_conn_eq_nil hc (f := Ev.sent) fun _ _ => rfl
  by_cases h0 : rank = 0 <;>
    simp [initTrace, distTrace, handleValues, List.filterMap_append, hconn, h0, Ev.sent]

theorem received_initTrace {a : InitAnswers} (hc : Connects a.conn) :
    (initTrace rank a).filterMap Ev.received = receivedValues a := by
  have hconn := filterMap_conn_eq_nil hc (f := Ev.received) fun _ _ => rfl
  by_cases h0 : rank = 0 <;>
    simp [initTrace, distTrace, receivedValues, List.filterMap_append, hconn, h0, Ev.received]

/-- Every collective of `DFS_Init` is a broadcast from rank 0 on `MPI_COMM_WORLD`. -/
theorem initTrace_coll {a : InitAnswers} (hc : Connects a.conn) {c : Coll} {v : Int}
    (h : Ev.enter c v ∈ initTrace rank a ∨ Ev.leave c v ∈ initTrace rank a) :
    c = .bcast .world 0 := by
  have hconn : Ev.enter c v ∉ a.conn ∧ Ev.leave c v ∉ a.conn := by
    constructor <;> intro he <;> obtain ⟨_, _, hr⟩ := hc.2 _ he <;> cases hr
  by_cases h0 : rank = 0 <;> simp [initTrace, distTrace, h0, hconn] at h <;> aesop

theorem length_initTrace {a : InitAnswers} (hc : Connects a.conn) :
    (initTrace rank a).length ≤ 23 := by
  have := hc.1
  by_cases h0 : rank = 0
  · simp [initTrace, distTrace, h0]; omega
  · simp [initTrace, distTrace, h0]

/-- Rank 0 contributes to a broadcast of `DFS_Init` only after its connection returned:
its events begin with `daos_init` and a run of the connection that returned, which is
`Connected`. -/
theorem dfsInit_connected {pool svcl cont : String} (hpool : o.pool = some pool)
    (hsvcl : o.svcl = some svcl) (hcont : o.cont = some cont)
    (h : WorkerRun (.run (dfsInit 0 derNonexist o)) t q) (hsent : t.filterMap Ev.sent ≠ []) :
    ∃ r conn rest, t = .call .daosInit r :: conn ++ rest ∧
      Connected derNonexist pool svcl cont o.group conn := by
  simp only [dfsInit, hpool, hsvcl, hcont, if_true] at h
  rcases h.call_inv with ⟨rfl, -⟩ | ⟨r, t, rfl, h₁⟩
  · exact absurd rfl hsent
  rcases h₁.dcheck_inv with ⟨rfl, -⟩ | h₂
  · exact absurd rfl hsent
  rcases h₂.bind_inv with ⟨q', h₃, -⟩ | ⟨conn, rest, _, rfl, h₃, -⟩
  · exact absurd (filterMap_conn_eq_nil (h₃.callsAtMost (connectPool_callsAtMost _ _ _ _))
      fun _ _ => rfl) hsent
  · exact ⟨r, conn, rest, rfl, connectPool_connected h₃⟩

end Init

/-! ## §3 What the broadcasts deliver -/

section Broadcasts

variable {N : Nat} {derNonexist : Int} {o : DfsOptions} {s : Sys Unit}

theorem Reachable.init_run (h : Reachable N (fun i => dfsInit i derNonexist o) s) (i : Nat) :
    ∃ a : InitAnswers, Connects a.conn ∧ proj i s.log <+: initTrace i a ∧
      ∀ u, s.ctl i = .run (.done u) → proj i s.log = initTrace i a :=
  dfsInit_run (h.runs i)

/-- Every rank has left only broadcasts from rank 0. -/
theorem Reachable.init_leave_bcast (h : Reachable N (fun i => dfsInit i derNonexist o) s)
    {i : Nat} {c : Coll} {x : Int} (hm : (i, Ev.leave c x) ∈ s.log) : ∃ comm, c = .bcast comm 0 := by
  obtain ⟨a, hc, ht, -⟩ := h.init_run i
  exact ⟨_, initTrace_coll hc (.inr (ht.subset (mem_proj.mpr hm)))⟩

/-- Every rank has received, in order, a prefix of what rank 0 has contributed. -/
theorem Reachable.init_received (h : Reachable N (fun i => dfsInit i derNonexist o) s) (i : Nat) :
    received i s.log <+: sent 0 s.log :=
  h.received_prefix (fun _ _ _ hm => h.init_leave_bcast hm) i

end Broadcasts

/-! ## §4 Every rank returns -/

section Finish

variable {rank N : Nat} {derNonexist : Int} {o : DfsOptions} {s : Sys Unit}
  {pool svcl cont : String}

theorem handleDistribute_safe {type : HandleType} (htype : type ≠ .arrayHandle) :
    (handleDistribute rank type).SafeUnder (Succeeds rank) := by
  rw [handleDistribute, if_neg htype]
  by_cases h0 : rank = 0 <;> simp [Prog.SafeUnder, Succeeds, Reply.forall_rc_eq_zero, h0]

theorem connectPool_safe {group : Option String} :
    (connectPool derNonexist pool svcl cont group).SafeUnder (Succeeds rank) := by
  simp [connectPool, Prog.SafeUnder, Succeeds, Reply.forall_rc_eq_zero]
  split <;> simp [Prog.SafeUnder, Succeeds, Reply.forall_rc_eq_zero]

/-- With its options given, `DFS_Init` ends the run only on a failed call: on one of its
`DCHECK`s, or when `malloc` fails. -/
theorem dfsInit_safe (hpool : o.pool = some pool) (hsvcl : o.svcl = some svcl)
    (hcont : o.cont = some cont) : (dfsInit rank derNonexist o).SafeUnder (Succeeds rank) := by
  simp only [dfsInit, hpool, hsvcl, hcont]
  refine fun r hr => Prog.safeUnder_dcheck (le_of_eq hr.symm) (.bind ?_ fun _ =>
    .bind (handleDistribute_safe (by decide)) fun _ =>
    .bind (handleDistribute_safe (by decide)) fun _ => ?_)
  · split
    exacts [connectPool_safe, trivial]
  · simp [Prog.SafeUnder, Succeeds, Reply.forall_rc_eq_zero]

/-- With every call succeeding, `DFS_Init` keeps `N` workers live: none ends the run, each
emits at most 23 events and enters at most four broadcasts, all four once returned, and a
broadcast waits only for rank 0. -/
theorem Reachable.init_live (hN : 0 < N) (hpool : o.pool = some pool)
    (hsvcl : o.svcl = some svcl) (hcont : o.cont = some cont)
    (h : Reachable N (fun i => dfsInit i derNonexist o) s) (ha : AnsweredBy Succeeds s.log) :
    Live N 4 23 s where
  no_abort i _ := (h.runs i).ne_abort_of_safeUnder (fun c r hm => ha i c r (mem_proj.mp hm))
    (dfsInit_safe hpool hsvcl hcont)
  sent_le i _ := by
    obtain ⟨a, hc, ht, -⟩ := h.init_run i
    have := (ht.filterMap Ev.sent).length_le
    rw [sent_initTrace hc] at this
    split_ifs at this <;> exact this
  sent_done i _ u hu := by
    obtain ⟨a, hc, -, ht⟩ := h.init_run i
    rw [sent, ht u hu, sent_initTrace hc]
    split_ifs <;> rfl
  sources i _ c k hw j hj := by
    have hr := h.runs i
    rw [hw] at hr
    rcases hr.wait_entered with ⟨-, hq⟩ | ⟨t, v, ht⟩
    · cases hq
    obtain ⟨a, hc, hti, -⟩ := h.init_run i
    have hc' := initTrace_coll hc (.inl (hti.subset (ht ▸ List.mem_append_right _ (List.mem_singleton_self _))))
    subst hc'
    exact (show j = 0 from hj) ▸ hN
  length_le i _ := by
    obtain ⟨a, hc, ht, -⟩ := h.init_run i
    exact ht.length_le.trans (length_initTrace hc)

/-- `DFS_Init` on `N` workers with its options given, every call succeeding: from every
reachable state, a schedule brings every rank back from `DFS_Init`. Then each rank's
events are those of the whole function, in which the sizes it allocated and the buffers
it received are rank 0's: the size and the bytes of its pool handle, then of its
container handle. -/
theorem dfsInit_completes (hN : 0 < N) (hpool : o.pool = some pool) (hsvcl : o.svcl = some svcl)
    (hcont : o.cont = some cont) (h : Reachable N (fun i => dfsInit i derNonexist o) s)
    (ha : AnsweredBy Succeeds s.log) :
    ∃ s', Relation.ReflTransGen (Step N) s s' ∧ AnsweredBy Succeeds s'.log ∧
      ∃ a₀ : InitAnswers, proj 0 s'.log = initTrace 0 a₀ ∧
        ∀ i < N, s'.ctl i = .run (.done ()) ∧
          ∃ a : InitAnswers, proj i s'.log = initTrace i a ∧ receivedValues a = handleValues a₀ := by
  obtain ⟨s', hs', ha', hdone⟩ :=
    h.finishes (fun i c => show ∃ r, Succeeds i c r from ⟨⟨0, 0⟩, rfl⟩)
      (fun _ h ha => h.init_live hN hpool hsvcl hcont ha) ha
  have h' := h.steps hs'
  obtain ⟨u₀, hu₀⟩ := hdone 0 hN
  obtain ⟨a₀, hc₀, -, hfull₀⟩ := h'.init_run 0
  refine ⟨s', hs', ha', a₀, hfull₀ u₀ hu₀, fun i hi => ?_⟩
  obtain ⟨⟨⟩, hu⟩ := hdone i hi
  obtain ⟨a, hc, -, hfull⟩ := h'.init_run i
  have hrecv := h'.init_received i
  rw [sent, hfull₀ _ hu₀, sent_initTrace hc₀, if_pos rfl, received, hfull _ hu,
    received_initTrace hc] at hrecv
  exact ⟨hu, a, hfull _ hu, hrecv.eq_of_length rfl⟩

theorem dfsInit_completes_two_ranks :
    ∃ s', Relation.ReflTransGen (Step 2)
        ⟨fun i => .run (dfsInit i 0 ⟨some "p", some "0", none, some "c", false⟩), []⟩ s' ∧
      ∀ i < 2, s'.ctl i = .run (.done ()) := by
  have h : Reachable 2 (fun i => dfsInit i 0 ⟨some "p", some "0", none, some "c", false⟩)
      ⟨fun i => .run (dfsInit i 0 ⟨some "p", some "0", none, some "c", false⟩), []⟩ := .init
  obtain ⟨s', hs', -, _, -, hdone⟩ :=
    dfsInit_completes (by decide) rfl rfl rfl h fun _ _ _ hm => absurd hm (List.not_mem_nil _)
  exact ⟨s', hs', fun i hi => (hdone i hi).1⟩

/-- The two-rank run of `DFS_Init` with every call succeeding, carried to its end: rank 1
has received what rank 0 broadcast. -/
theorem init_two_ranks_done :
    ∃ s, Reachable 2 (fun i => dfsInit i 0 ⟨some "p", some "0", none, some "c", false⟩) s ∧
      (∀ i < 2, s.ctl i = .run (.done ())) ∧ received 1 s.log ≠ [] := by
  have h : Reachable 2 (fun i => dfsInit i 0 ⟨some "p", some "0", none, some "c", false⟩)
      ⟨fun i => .run (dfsInit i 0 ⟨some "p", some "0", none, some "c", false⟩), []⟩ := .init
  obtain ⟨s', hs', -, hdone⟩ :=
    h.finishes (fun i c => show ∃ r, Succeeds i c r from ⟨⟨0, 0⟩, rfl⟩)
      (fun _ h ha => h.init_live (by decide) rfl rfl rfl ha) fun _ _ _ hm => nomatch hm
  have h' := h.steps hs'
  obtain ⟨⟨⟩, hu⟩ := hdone 1 (by decide)
  obtain ⟨a, hc, -, hfull⟩ := h'.init_run 1
  refine ⟨s', h', fun i hi => ?_, ?_⟩
  · obtain ⟨⟨⟩, hu⟩ := hdone i hi
    exact hu
  · rw [received, hfull _ hu, received_initTrace hc, receivedValues]
    exact List.cons_ne_nil _ _

end Finish

/-! ## §5 Every rank holds rank 0's handles -/

section Shared

variable {N : Nat} {derNonexist : Int} {o : DfsOptions} {s : Sys Unit}

/-- What the ranks of `DFS_Init` hold, in every state and whatever the engine answered:
rank 0's events follow the trace of a `DFS_Init` that serialises its handles as
`handleValues a₀`, and every rank's events follow such a trace, in which it has
received, in order, a prefix of `handleValues a₀`: each rank allocates rank 0's sizes
and each other rank converts rank 0's handles. -/
theorem dfsInit_handles_shared (h : Reachable N (fun i => dfsInit i derNonexist o) s) :
    ∃ a₀ : InitAnswers, Connects a₀.conn ∧ proj 0 s.log <+: initTrace 0 a₀ ∧
      ∀ i, (∃ a : InitAnswers, Connects a.conn ∧ proj i s.log <+: initTrace i a) ∧
        received i s.log <+: handleValues a₀ := by
  obtain ⟨a₀, hc₀, ht₀, -⟩ := h.init_run 0
  have hsent : sent 0 s.log <+: handleValues a₀ := by
    simpa [sent_initTrace hc₀] using ht₀.filterMap Ev.sent
  refine ⟨a₀, hc₀, ht₀, fun i => ⟨?_, ?_⟩⟩
  · obtain ⟨a, hc, ht, -⟩ := h.init_run i
    exact ⟨a, hc, ht⟩
  · exact (h.init_received i).trans hsent

theorem dfsInit_handles_shared_two_ranks :
    ∃ s, Reachable 2 (fun i => dfsInit i 0 ⟨some "p", some "0", none, some "c", false⟩) s ∧
      (∀ i < 2, s.ctl i = .run (.done ())) ∧ received 1 s.log ≠ [] ∧
      ∃ a₀ : InitAnswers, Connects a₀.conn ∧ proj 0 s.log <+: initTrace 0 a₀ ∧
        ∀ i, (∃ a : InitAnswers, Connects a.conn ∧ proj i s.log <+: initTrace i a) ∧
          received i s.log <+: handleValues a₀ := by
  obtain ⟨s, h, hdone, hrecv⟩ := init_two_ranks_done
  exact ⟨s, h, hdone, hrecv, dfsInit_handles_shared h⟩

end Shared

/-! ## §6 Rank 0 connects before any rank receives -/

section Connect

variable {N : Nat} {derNonexist : Int} {o : DfsOptions} {s : Sys Unit} {pool svcl cont : String}

/-- Over every interleaving and every engine answer, a rank receives something from the
broadcasts of `DFS_Init` only once rank 0 has connected: rank 0's events then begin with
`daos_init` and a connection that returned, with the pool connected and the container
opened, or created when it did not exist. -/
theorem dfsInit_connects_first (hpool : o.pool = some pool) (hsvcl : o.svcl = some svcl)
    (hcont : o.cont = some cont) (h : Reachable N (fun i => dfsInit i derNonexist o) s)
    {i : Nat} (hrecv : received i s.log ≠ []) :
    ∃ r conn rest, proj 0 s.log = .call .daosInit r :: conn ++ rest ∧
      Connected derNonexist pool svcl cont o.group conn := by
  have hsent : sent 0 s.log ≠ [] := fun h0 => hrecv (List.prefix_nil.mp (h0 ▸ h.init_received i))
  exact dfsInit_connected hpool hsvcl hcont (h.runs 0) hsent

theorem dfsInit_connects_first_two_ranks :
    ∃ s, Reachable 2 (fun i => dfsInit i 0 ⟨some "p", some "0", none, some "c", false⟩) s ∧
      received 1 s.log ≠ [] ∧ ∃ r conn rest, proj 0 s.log = .call .daosInit r :: conn ++ rest ∧
        Connected 0 "p" "0" "c" none conn := by
  obtain ⟨s, h, -, hrecv⟩ := init_two_ranks_done
  exact ⟨s, h, hrecv, dfsInit_connects_first rfl rfl rfl h hrecv⟩

end Connect

end IorDfs
