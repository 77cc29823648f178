import IorDfs.Spmd
import IorDfs.Query

/-!
# The Aggregate File Size on `N` Workers

`DFS_GetFileSize` (lines 597-638) reads the size of the test file on every rank and
all-reduces it over `comm` as an `MPI_LONG_LONG_INT`: the sum with `filePerProc`, else
the minimum and the maximum, rank 0 warning when they differ. Here `N` workers run it,
every lookup succeeding and worker `i`'s `dfs_get_size` reporting `sizes i`, an
unsigned 64-bit value.

## Results

- `Reachable.size_agreement`: in every reachable state, every worker that returned
  returned `sizeResult`, one value for all ranks; only rank 0 warns, and once it has
  returned it has warned exactly when the file is shared and the sizes differ.
- `Reachable.size_finishes`: from every reachable state all workers can return, so no
  schedule leaves a worker blocked in an all-reduce.
- `sizeResult` reduces the sizes *read as `long long`s*. It is the exact sum only while
  that is below 2^63 (`sizeResult_sum_exact`), and the exact minimum only while every
  size is (`sizeResult_min_exact`); `dfsGetFileSize_wraps` runs two sizes of 2^62 to a
  sum of -2^63, and one of 2^63 to -2^63.
- `dfsGetFileSize_missing_completes`: when the ranks share a path that the namespace
  does not hold, their lookups all fail alike and every rank returns `-1`, none having
  entered an all-reduce.

## Method

Each worker's events are a prefix of one trace (`dfsGetFileSize_run`). Every value a
worker contributes is its own size read as a `long long` (`Reachable.sent_size`), so
whichever all-reduce a worker leaves, and whenever, it receives the reduction of all the
readings (`Reachable.leave_value`). Termination is `Reachable.finishes` of
`IorDfs.Spmd`: in every reachable state the workers are `Live`
(`Reachable.size_live`), each entering one or two all-reduces and emitting at most
seven events.
-/

namespace IorDfs

/-! ## §1 `long long` readings -/

/-- A `long long` reading depends only on the value modulo 2^64. -/
theorem toLongLong_emod (a : Int) : toLongLong a % 2 ^ 64 = a % 2 ^ 64 := by
  unfold toLongLong; omega

theorem toLongLong_congr {a b : Int} (h : a % 2 ^ 64 = b % 2 ^ 64) :
    toLongLong a = toLongLong b := by
  unfold toLongLong; omega

/-- A value below 2^63 reads as itself. -/
theorem toLongLong_of_lt {a : Int} (h₀ : 0 ≤ a) (h : a < 2 ^ 63) : toLongLong a = a := by
  unfold toLongLong; omega

/-- Two `daos_size_t` values read alike exactly when they are equal. -/
theorem toLongLong_inj {a b : Nat} (ha : a < 2 ^ 64) (hb : b < 2 ^ 64) :
    toLongLong a = toLongLong b ↔ a = b := by
  unfold toLongLong; omega

/-- Summing the readings wraps as summing the values does. -/
theorem sum_map_toLongLong_emod (l : List Int) :
    (l.map toLongLong).sum % 2 ^ 64 = l.sum % 2 ^ 64 := by
  induction l with
  | nil => rfl
  | cons a l ih =>
    have ha := toLongLong_emod a
    simp only [List.map_cons, List.sum_cons]
    omega

/-! ## §2 Least and greatest elements -/

section MinMax

variable {α : Type} [LinearOrder α] {l : List α} {m : α}

theorem min?_le_of_mem (hm : l.min? = some m) {a : α} (ha : a ∈ l) : m ≤ a :=
  (List.le_min?_iff (fun _ _ _ => le_min_iff) hm).mp le_rfl a ha

theorem le_max?_of_mem (hm : l.max? = some m) {a : α} (ha : a ∈ l) : a ≤ m :=
  (List.max?_le_iff (fun _ _ _ => max_le_iff) hm).mp le_rfl a ha

/-- The least and the greatest element of a list agree exactly when all its elements do. -/
theorem exists_min?_eq (hl : l ≠ []) : ∃ m, l.min? = some m :=
  Option.ne_none_iff_exists'.mp (mt List.min?_eq_none_iff.mp hl)

theorem exists_max?_eq (hl : l ≠ []) : ∃ m, l.max? = some m :=
  Option.ne_none_iff_exists'.mp (mt List.max?_eq_none_iff.mp hl)

/-- The least and the greatest element of a list agree exactly when all its elements do. -/
theorem min?_eq_max?_iff : l.min? = l.max? ↔ ∀ a ∈ l, ∀ b ∈ l, a = b := by
  cases l with
  | nil => simp
  | cons c l =>
  obtain ⟨m, hm⟩ := exists_min?_eq (List.cons_ne_nil c l)
  obtain ⟨M, hM⟩ := exists_max?_eq (List.cons_ne_nil c l)
  rw [hm, hM, Option.some.injEq]
  constructor
  · rintro rfl a ha b hb
    have hab : ∀ a ∈ c :: l, a = m := fun a ha =>
      le_antisymm (le_max?_of_mem hM ha) (min?_le_of_mem hm ha)
    rw [hab a ha, hab b hb]
  · exact fun h => h m (List.min?_mem min_choice hm) M (List.max?_mem max_choice hM)

/-- On a non-empty list, `MPI_MIN` and `MPI_MAX` agree exactly when all elements do. -/
theorem min?_getD_eq_max?_getD_iff (hl : l ≠ []) (d : α) :
    l.min?.getD d = l.max?.getD d ↔ ∀ a ∈ l, ∀ b ∈ l, a = b := by
  obtain ⟨m, hm⟩ := exists_min?_eq hl
  obtain ⟨M, hM⟩ := exists_max?_eq hl
  rw [← min?_eq_max?_iff, hm, hM, Option.getD_some, Option.getD_some, Option.some.injEq]

/-- An element of a list whose elements all agree is its minimum. -/
theorem eq_min?_getD_of_forall_eq (hall : ∀ a ∈ l, ∀ b ∈ l, a = b) {a : α} (ha : a ∈ l) (d : α) :
    a = l.min?.getD d := by
  obtain ⟨m, hm⟩ := exists_min?_eq (List.ne_nil_of_mem ha)
  rw [hm, Option.getD_some]
  exact hall a ha m (List.min?_mem min_choice hm)

end MinMax

/-! ## §3 One worker -/

/-- The replies of an engine in which every call succeeds and `dfs_get_size` reports
`size`. -/
def SizeAnswer (size : Nat) : Call → Reply → Prop
  | .getSize _, r => r = ⟨0, size⟩
  | _, r => r.rc = 0

/-- One such reply to each call. -/
def sizeReply (size : Nat) : Call → Reply
  | .getSize _ => ⟨0, size⟩
  | _ => ⟨0, 0⟩

theorem sizeAnswer_sizeReply (size : Nat) (c : Call) : SizeAnswer size c (sizeReply size c) := by
  cases c <;> rfl

/-- The events of a `DFS_GetFileSize` whose lookup returns handle `o` and whose size
read reports `size`, the all-reduces returning `x` and then `y`. -/
def sizeTrace (rank : Nat) (filePerProc : Bool) (comm : Comm) (name : List Char) (o size : Nat)
    (x y : Int) : List Ev :=
  .call (.lookup name .rdonly) ⟨0, o⟩ :: .call (.getSize name) ⟨0, size⟩ ::
    if filePerProc then
      [.enter (.allreduce comm .sum) (toLongLong size), .leave (.allreduce comm .sum) x]
    else
      [.enter (.allreduce comm .min) (toLongLong size), .leave (.allreduce comm .min) x,
        .enter (.allreduce comm .max) (toLongLong size), .leave (.allreduce comm .max) y] ++
      if x ≠ y ∧ rank = 0 then [.warn "inconsistent file size by different tasks"] else []

/-- What that worker returns. -/
def sizeReturn (filePerProc : Bool) (size : Nat) (x y : Int) : Int :=
  if filePerProc then x else if x ≠ y then x else toLongLong size

section Worker

variable {rank : Nat} {filePerProc : Bool} {comm : Comm} {name : List Char} {o size : Nat}
  {x y : Int}

/-- `DFS_GetFileSize` never ends the run: its failures return `-1`. -/
theorem dfsGetFileSize_noAbort : (dfsGetFileSize rank filePerProc comm name).NoAbort := by
  intro r
  dsimp only
  split
  · trivial
  intro g
  dsimp only
  split
  · trivial
  split
  · intro x; trivial
  · intro x y
    dsimp only
    split
    · split <;> trivial
    · trivial

/-- A run that has returned `a` is its whole trace `T`, and returns `b`. -/
theorem done_trace_of_eq {t T : List Ev} {a b : Int} (ht : t = T) (hab : a = b) :
    t <+: T ∧ ∀ v, (Ctl.run (.done a) : Ctl Int) = .run (.done v) → t = T ∧ v = b :=
  ⟨ht ▸ List.prefix_rfl, fun _ hv => ⟨ht, Prog.done.inj (Ctl.run.inj hv) ▸ hab⟩⟩

/-- Every run of `DFS_GetFileSize` whose calls are answered so is a prefix of its trace,
all of it when the worker has returned. -/
theorem dfsGetFileSize_run {t : List Ev} {q : Ctl Int}
    (h : WorkerRun (.run (dfsGetFileSize rank filePerProc comm name)) t q)
    (ha : ∀ c r, Ev.call c r ∈ t → SizeAnswer size c r) :
    ∃ o x y, t <+: sizeTrace rank filePerProc comm name o size x y ∧
      ∀ v, q = .run (.done v) →
        t = sizeTrace rank filePerProc comm name o size x y ∧ v = sizeReturn filePerProc size x y := by
  rcases h.call_inv with ⟨rfl, rfl⟩ | ⟨⟨rc, o⟩, t, rfl, h₁⟩
  · exact ⟨0, 0, 0, List.nil_prefix, by simp⟩
  obtain rfl : rc = 0 := ha _ _ (List.mem_cons_self _ _)
  rw [if_neg (not_not.mpr rfl)] at h₁
  rcases h₁.call_inv with ⟨rfl, rfl⟩ | ⟨g, t, rfl, h₂⟩
  · exact ⟨o, 0, 0, ⟨_, rfl⟩, by simp⟩
  obtain rfl : g = ⟨0, size⟩ := ha (.getSize name) g (by simp)
  rw [if_neg (not_not.mpr rfl)] at h₂
  cases filePerProc with
  | true =>
    rw [if_pos rfl] at h₂
    rcases h₂.coll_inv with ⟨rfl, rfl⟩ | ⟨rfl, rfl⟩ | ⟨x, t, rfl, h₃⟩
    · exact ⟨o, 0, 0, ⟨_, rfl⟩, by simp⟩
    · exact ⟨o, 0, 0, ⟨_, rfl⟩, by simp⟩
    obtain ⟨rfl, rfl⟩ := h₃.done_inv
    exact ⟨o, x, 0, done_trace_of_eq rfl rfl⟩
  | false =>
    rw [if_neg Bool.false_ne_true] at h₂
    rcases h₂.coll_inv with ⟨rfl, rfl⟩ | ⟨rfl, rfl⟩ | ⟨x, t, rfl, h₃⟩
    · exact ⟨o, 0, 0, ⟨_, rfl⟩, by simp⟩
    · exact ⟨o, 0, 0, ⟨_, rfl⟩, by simp⟩
    rcases h₃.coll_inv with ⟨rfl, rfl⟩ | ⟨rfl, rfl⟩ | ⟨y, t, rfl, h₄⟩
    · exact ⟨o, x, 0, ⟨_, rfl⟩, by simp⟩
    · exact ⟨o, x, 0, ⟨_, rfl⟩, by simp⟩
    refine ⟨o, x, y, ?_⟩
    by_cases hxy : x = y
    · subst hxy
      rw [if_neg (not_not.mpr rfl)] at h₄
      obtain ⟨rfl, rfl⟩ := h₄.done_inv
      exact done_trace_of_eq (by simp [sizeTrace]) (by simp [sizeReturn])
    rw [if_pos hxy] at h₄
    by_cases h0 : rank = 0
    · rw [if_pos h0] at h₄
      rcases h₄.warn_inv with ⟨rfl, rfl⟩ | ⟨t, rfl, h₅⟩
      · exact ⟨⟨_, rfl⟩, by simp⟩
      obtain ⟨rfl, rfl⟩ := h₅.done_inv
      exact done_trace_of_eq (by simp [sizeTrace, hxy, h0]) (by simp [sizeReturn, hxy])
    · rw [if_neg h0] at h₄
      obtain ⟨rfl, rfl⟩ := h₄.done_inv
      exact done_trace_of_eq (by simp [sizeTrace, h0]) (by simp [sizeReturn, hxy])

/-- A worker contributes its own size, read as a `long long`, to each of its
all-reduces: once with `filePerProc`, twice without. -/
theorem sent_sizeTrace :
    (sizeTrace rank filePerProc comm name o size x y).filterMap Ev.sent =
      if filePerProc then [toLongLong size] else [toLongLong size, toLongLong size] := by
  cases filePerProc
  · simp only [sizeTrace]; split_ifs <;> rfl
  · rfl

theorem length_sent_sizeTrace :
    ((sizeTrace rank filePerProc comm name o size x y).filterMap Ev.sent).length =
      if filePerProc then 1 else 2 := by
  rw [sent_sizeTrace]; split_ifs <;> rfl

/-- A worker enters only all-reduces on `comm`. -/
theorem sizeTrace_enter {c : Coll} {v : Int}
    (h : Ev.enter c v ∈ sizeTrace rank filePerProc comm name o size x y) :
    ∃ op, c = .allreduce comm op := by
  cases filePerProc <;> simp [sizeTrace] at h
  · rcases h with ⟨rfl, -⟩ | ⟨rfl, -⟩ <;> exact ⟨_, rfl⟩
  · exact ⟨_, h.1⟩

/-- Only rank 0 warns, and only on a shared file whose all-reduces disagreed. -/
theorem sizeTrace_warn {m : String}
    (h : Ev.warn m ∈ sizeTrace rank filePerProc comm name o size x y) :
    filePerProc = false ∧ x ≠ y ∧ rank = 0 := by
  cases filePerProc <;> simp [sizeTrace] at h
  exact ⟨rfl, h.1⟩

theorem length_sizeTrace : (sizeTrace rank filePerProc comm name o size x y).length ≤ 7 := by
  cases filePerProc <;> simp [sizeTrace]
  split_ifs <;> simp

end Worker

/-! ## §4 `N` workers -/

/-- Every call of worker `i` in the log was answered so, `sizes i` being its size. -/
def Answered (sizes : Nat → Nat) (log : List (Nat × Ev)) : Prop :=
  ∀ i c r, (i, Ev.call c r) ∈ log → SizeAnswer (sizes i) c r

/-- The sizes read as `long long`s, rank by rank. -/
def readings (N : Nat) (sizes : Nat → Nat) : List Int :=
  (List.range N).map fun j => toLongLong (sizes j)

/-- What every rank returns: the all-reduced readings, summed with `filePerProc`, else
their minimum. -/
def sizeResult (N : Nat) (sizes : Nat → Nat) (filePerProc : Bool) : Int :=
  if filePerProc then ReduceOp.sum.apply (readings N sizes) else ReduceOp.min.apply (readings N sizes)

/-- What `DFS_GetFileSize` on `N` workers guarantees in one state: every worker that
returned returned `sizeResult`, only rank 0 warns, and rank 0, once returned, has
warned exactly when the file is shared and its sizes differ. -/
structure SizeAgreement (N : Nat) (sizes : Nat → Nat) (filePerProc : Bool) (s : Sys Int) :
    Prop where
  returns : ∀ i v, s.ctl i = .run (.done v) → v = sizeResult N sizes filePerProc
  warns_rank0 : ∀ i m, (i, Ev.warn m) ∈ s.log → i = 0
  warns_iff : ∀ v, s.ctl 0 = .run (.done v) →
    ((∃ m, (0, Ev.warn m) ∈ s.log) ↔
      filePerProc = false ∧ ((List.range N).map sizes).min? ≠ ((List.range N).map sizes).max?)

section Reachable

variable {N : Nat} {sizes : Nat → Nat} {filePerProc : Bool} {comm : Comm} {name : List Char}
  {s : Sys Int}

/-- In every reachable state each worker's events are a prefix of its trace, all of it
once it has returned. -/
theorem Reachable.size_run (h : Reachable N (fun i => dfsGetFileSize i filePerProc comm name) s)
    (ha : Answered sizes s.log) (i : Nat) :
    ∃ o x y, proj i s.log <+: sizeTrace i filePerProc comm name o (sizes i) x y ∧
      ∀ v, s.ctl i = .run (.done v) →
        proj i s.log = sizeTrace i filePerProc comm name o (sizes i) x y ∧
          v = sizeReturn filePerProc (sizes i) x y :=
  dfsGetFileSize_run (h.runs i) fun c r hm => ha i c r (mem_proj.mp hm)

theorem Reachable.size_done (h : Reachable N (fun i => dfsGetFileSize i filePerProc comm name) s)
    (ha : Answered sizes s.log) {i : Nat} {v : Int} (hv : s.ctl i = .run (.done v)) :
    ∃ o x y, proj i s.log = sizeTrace i filePerProc comm name o (sizes i) x y ∧
      v = sizeReturn filePerProc (sizes i) x y := by
  obtain ⟨o, x, y, -, hdone⟩ := h.size_run ha i
  exact ⟨o, x, y, hdone v hv⟩

/-- Every value a worker has contributed is its own size read as a `long long`. -/
theorem Reachable.sent_size (h : Reachable N (fun i => dfsGetFileSize i filePerProc comm name) s)
    (ha : Answered sizes s.log) (j : Nat) {w : Int} (hw : w ∈ sent j s.log) :
    w = toLongLong (sizes j) := by
  obtain ⟨o, x, y, ht, -⟩ := h.size_run ha j
  have hw' := (ht.filterMap Ev.sent).subset hw
  rw [sent_sizeTrace] at hw'
  split_ifs at hw' <;> simpa using hw'

/-- Whichever all-reduce a worker leaves, and whenever, it receives the reduction of all
the readings. -/
theorem Reachable.leave_value (h : Reachable N (fun i => dfsGetFileSize i filePerProc comm name) s)
    (ha : Answered sizes s.log) {i : Nat} {c : Comm} {op : ReduceOp} {x : Int}
    (hx : (i, Ev.leave (.allreduce c op) x) ∈ s.log) : x = op.apply (readings N sizes) := by
  obtain ⟨pre, post, hlog⟩ := List.append_of_mem hx
  obtain ⟨hready, hxv⟩ := h.allowed pre _ post hlog
  dsimp only at hready hxv
  have hpre : pre <+: s.log := hlog ▸ List.prefix_append _ _
  rw [hxv]
  refine congrArg op.apply (List.map_congr_left fun j hj => ?_)
  have hlt : (sent i pre).length - 1 < (sent j pre).length := hready j (List.mem_range.mp hj)
  rw [List.getD_eq_getElem?_getD, List.getElem?_eq_getElem hlt, Option.getD_some]
  exact h.sent_size ha j (((proj_mono j hpre).filterMap Ev.sent).subset (List.getElem_mem hlt))

/-- A worker that returned from a shared file received the minimum and then the maximum
of the readings. -/
theorem Reachable.size_done_shared
    (h : Reachable N (fun i => dfsGetFileSize i false comm name) s) (ha : Answered sizes s.log)
    {i o : Nat} {x y : Int} (ht : proj i s.log = sizeTrace i false comm name o (sizes i) x y) :
    x = (readings N sizes).min?.getD 0 ∧ y = (readings N sizes).max?.getD 0 ∧ i < N := by
  have hmem : ∀ e ∈ sizeTrace i false comm name o (sizes i) x y, (i, e) ∈ s.log :=
    fun e he => mem_proj.mp (ht ▸ he)
  exact ⟨h.leave_value ha (hmem (.leave (.allreduce comm .min) x) (by simp [sizeTrace])),
    h.leave_value ha (hmem (.leave (.allreduce comm .max) y) (by simp [sizeTrace])),
    h.lt_of_mem (hmem _ (List.mem_cons_self _ _))⟩

theorem readings_mem {i : Nat} (hi : i < N) : toLongLong (sizes i) ∈ readings N sizes :=
  List.mem_map_of_mem _ (List.mem_range.mpr hi)

/-- The readings of sizes below 2^64 agree exactly when the sizes do. -/
theorem readings_allEq_iff (hsizes : ∀ j < N, sizes j < 2 ^ 64) :
    (∀ a ∈ readings N sizes, ∀ b ∈ readings N sizes, a = b) ↔
      ∀ a ∈ (List.range N).map sizes, ∀ b ∈ (List.range N).map sizes, a = b := by
  simp only [readings, List.forall_mem_map, List.mem_range]
  exact forall₂_congr fun j hj => forall₂_congr fun k hk => toLongLong_inj (hsizes j hj) (hsizes k hk)

/-- In every reachable state, `DFS_GetFileSize` keeps its agreement. -/
theorem Reachable.size_agreement
    (h : Reachable N (fun i => dfsGetFileSize i filePerProc comm name) s)
    (ha : Answered sizes s.log) (hsizes : ∀ j < N, sizes j < 2 ^ 64) :
    SizeAgreement N sizes filePerProc s := by
  refine ⟨fun i v hv => ?_, fun i m hm => ?_, fun v hv => ?_⟩
  · obtain ⟨o, x, y, ht, rfl⟩ := h.size_done ha hv
    cases filePerProc with
    | true => exact h.leave_value ha (mem_proj.mp (ht ▸ by simp [sizeTrace] :
        Ev.leave (.allreduce comm .sum) x ∈ proj i s.log))
    | false =>
      obtain ⟨hx, hy, hi⟩ := h.size_done_shared ha ht
      simp only [sizeReturn, sizeResult, Bool.false_eq_true, if_false]
      split_ifs with hxy
      · exact hx
      · rw [hx, hy] at hxy
        exact eq_min?_getD_of_forall_eq ((min?_getD_eq_max?_getD_iff
          (List.ne_nil_of_mem (readings_mem hi)) 0).mp (not_not.mp hxy)) (readings_mem hi) 0
  · obtain ⟨o, x, y, ht, -⟩ := h.size_run ha i
    exact (sizeTrace_warn (ht.subset (mem_proj.mpr hm))).2.2
  · obtain ⟨o, x, y, ht, -⟩ := h.size_done ha hv
    have hwarn : (∃ m, (0, Ev.warn m) ∈ s.log) ↔ filePerProc = false ∧ x ≠ y := by
      constructor
      · rintro ⟨m, hm⟩
        obtain ⟨hf, hxy, -⟩ := sizeTrace_warn (ht ▸ mem_proj.mpr hm)
        exact ⟨hf, hxy⟩
      · rintro ⟨rfl, hxy⟩
        exact ⟨_, mem_proj.mp (ht ▸ by simp [sizeTrace, hxy] :
          Ev.warn "inconsistent file size by different tasks" ∈ proj 0 s.log)⟩
    rw [hwarn]
    cases filePerProc with
    | true => simp
    | false =>
      obtain ⟨rfl, rfl, h0⟩ := h.size_done_shared ha ht
      rw [Ne, Ne, min?_getD_eq_max?_getD_iff (List.ne_nil_of_mem (readings_mem h0)) 0,
        min?_eq_max?_iff, readings_allEq_iff hsizes]

/-- A worker enters at most one all-reduce with `filePerProc`, two without, and exactly
so many once it has returned. -/
theorem Reachable.sent_length_le
    (h : Reachable N (fun i => dfsGetFileSize i filePerProc comm name) s)
    (ha : Answered sizes s.log) (i : Nat) :
    (sent i s.log).length ≤ if filePerProc then 1 else 2 := by
  obtain ⟨o, x, y, ht, -⟩ := h.size_run ha i
  exact length_sent_sizeTrace ▸ (ht.filterMap Ev.sent).length_le

theorem Reachable.sent_length_done
    (h : Reachable N (fun i => dfsGetFileSize i filePerProc comm name) s)
    (ha : Answered sizes s.log) {i : Nat} {v : Int} (hv : s.ctl i = .run (.done v)) :
    (sent i s.log).length = if filePerProc then 1 else 2 := by
  obtain ⟨o, x, y, ht, -⟩ := h.size_done ha hv
  rw [sent, ht, length_sent_sizeTrace]

theorem Reachable.proj_length_le
    (h : Reachable N (fun i => dfsGetFileSize i filePerProc comm name) s)
    (ha : Answered sizes s.log) (i : Nat) : (proj i s.log).length ≤ 7 := by
  obtain ⟨o, x, y, ht, -⟩ := h.size_run ha i
  exact ht.length_le.trans length_sizeTrace

/-- Under these answers `DFS_GetFileSize` keeps `N` workers live: none ends the run, each
emits at most seven events and enters one all-reduce with `filePerProc`, two without,
all of them once it has returned, and an all-reduce waits only for the `N`. -/
theorem Reachable.size_live
    (h : Reachable N (fun i => dfsGetFileSize i filePerProc comm name) s)
    (ha : Answered sizes s.log) : Live N (if filePerProc then 1 else 2) 7 s where
  no_abort i _ w := (h.runs i).ne_abort dfsGetFileSize_noAbort w
  sent_le i _ := h.sent_length_le ha i
  sent_done i _ _ hv := h.sent_length_done ha hv
  sources i _ c k hw j hj := by
    have hruns := h.runs i
    rw [hw] at hruns
    rcases hruns.wait_entered with ⟨-, hq⟩ | ⟨t', v, ht'⟩
    · cases hq
    obtain ⟨o, x, y, hti, -⟩ := h.size_run ha i
    obtain ⟨op, rfl⟩ := sizeTrace_enter
      (hti.subset (ht' ▸ List.mem_append_right _ (List.mem_singleton_self _)))
    exact hj
  length_le i _ := h.proj_length_le ha i

/-- From every reachable state, all workers can return: a schedule that answers every
call as the engine here does reaches a state where each of the `N` workers has returned. -/
theorem Reachable.size_finishes
    (h : Reachable N (fun i => dfsGetFileSize i filePerProc comm name) s)
    (ha : Answered sizes s.log) :
    ∃ s', Relation.ReflTransGen (Step N) s s' ∧ Answered sizes s'.log ∧
      ∀ i < N, ∃ v, s'.ctl i = .run (.done v) :=
  h.finishes (fun i c => show ∃ r, SizeAnswer (sizes i) c r from ⟨_, sizeAnswer_sizeReply _ c⟩)
    (fun _ h ha => h.size_live ha) ha

end Reachable

/-! ## §5 The result against the exact sum and minimum -/

section Exact

variable {N : Nat} {sizes : Nat → Nat}

/-- With a file per process, the result is the exact sum while that is below 2^63. -/
theorem sizeResult_sum_exact (h : ((List.range N).map fun j => (sizes j : Int)).sum < 2 ^ 63) :
    sizeResult N sizes true = ((List.range N).map fun j => (sizes j : Int)).sum := by
  have h₀ : 0 ≤ ((List.range N).map fun j => (sizes j : Int)).sum :=
    List.sum_nonneg fun a ha => by obtain ⟨j, -, rfl⟩ := List.mem_map.mp ha; omega
  have hr : readings N sizes = ((List.range N).map fun j => (sizes j : Int)).map toLongLong := by
    simp only [readings, List.map_map]; rfl
  show toLongLong (readings N sizes).sum = _
  calc toLongLong (readings N sizes).sum
      = toLongLong ((List.range N).map fun j => (sizes j : Int)).sum := by
        rw [hr]; exact toLongLong_congr (sum_map_toLongLong_emod _)
    _ = _ := toLongLong_of_lt h₀ h

/-- On a shared file, the result is the exact minimum while every size is below 2^63. -/
theorem sizeResult_min_exact (h : ∀ j < N, sizes j < 2 ^ 63) :
    sizeResult N sizes false = ((List.range N).map fun j => (sizes j : Int)).min?.getD 0 := by
  have hr : readings N sizes = (List.range N).map fun j => (sizes j : Int) :=
    List.map_congr_left fun j hj => by
      have := h j (List.mem_range.mp hj)
      exact toLongLong_of_lt (by omega) (by omega)
  show (readings N sizes).min?.getD 0 = _
  rw [hr]

/-- Two workers with a file of 2^62 bytes each both return `-2^63`, not 2^63; one worker
whose shared file has 2^63 bytes returns `-2^63`, not 2^63. -/
theorem dfsGetFileSize_wraps :
    (∃ s, Reachable 2 (fun i => dfsGetFileSize i true .test ['f']) s ∧
      Answered (fun _ => 2 ^ 62) s.log ∧
      s.ctl 0 = .run (.done (-2 ^ 63)) ∧ s.ctl 1 = .run (.done (-2 ^ 63))) ∧
    (∃ s, Reachable 1 (fun i => dfsGetFileSize i false .test ['f']) s ∧
      Answered (fun _ => 2 ^ 63) s.log ∧ s.ctl 0 = .run (.done (-2 ^ 63))) := by
  refine ⟨⟨_, .step (.step (.step (.step (.step (.step (.step (.step .init
    (.mk (i := 0) (by decide) (.call ⟨0, 0⟩) trivial))
    (.mk (i := 0) (by decide) (.call ⟨0, 2 ^ 62⟩) trivial))
    (.mk (i := 0) (by decide) .enter trivial))
    (.mk (i := 1) (by decide) (.call ⟨0, 0⟩) trivial))
    (.mk (i := 1) (by decide) (.call ⟨0, 2 ^ 62⟩) trivial))
    (.mk (i := 1) (by decide) .enter trivial))
    (.mk (i := 0) (by decide) (.leave _) ⟨fun j (hj : j < 2) => ?_, rfl⟩))
    (.mk (i := 1) (by decide) (.leave _) ⟨fun j (hj : j < 2) => ?_, rfl⟩), ?_, ?_, ?_⟩,
    ⟨_, .step (.step (.step (.step (.step (.step .init
    (.mk (i := 0) (by decide) (.call ⟨0, 0⟩) trivial))
    (.mk (i := 0) (by decide) (.call ⟨0, 2 ^ 63⟩) trivial))
    (.mk (i := 0) (by decide) .enter trivial))
    (.mk (i := 0) (by decide) (.leave _) ⟨fun j (hj : j < 1) => ?_, rfl⟩))
    (.mk (i := 0) (by decide) .enter trivial))
    (.mk (i := 0) (by decide) (.leave _) ⟨fun j (hj : j < 1) => ?_, rfl⟩), ?_, ?_⟩⟩
  · interval_cases j <;> decide
  · interval_cases j <;> decide
  · intro i c r hm
    simp at hm
    rcases hm with ⟨-, rfl, rfl⟩ | ⟨-, rfl, rfl⟩ | ⟨-, rfl, rfl⟩ | ⟨-, rfl, rfl⟩ <;> rfl
  · rfl
  · rfl
  · interval_cases j; decide
  · interval_cases j; decide
  · intro i c r hm
    simp at hm
    rcases hm with ⟨-, rfl, rfl⟩ | ⟨-, rfl, rfl⟩ <;> rfl
  · rfl

end Exact

/-! ## §6 The aggregate size -/

/-- `DFS_GetFileSize` on `N` workers, every lookup succeeding and worker `j`'s size read
reporting `sizes j < 2^64`: in every reachable state the agreement holds, and from each
of them every worker can go on to return `sizeResult`; that is the exact sum while the
sum is below 2^63, and the exact minimum while every size is. -/
theorem dfsGetFileSize_agreement (N : Nat) (sizes : Nat → Nat) (filePerProc : Bool) (comm : Comm)
    (name : List Char) (hsizes : ∀ j < N, sizes j < 2 ^ 64) :
    (∀ s, Reachable N (fun i => dfsGetFileSize i filePerProc comm name) s → Answered sizes s.log →
      SizeAgreement N sizes filePerProc s ∧
      ∃ s', Relation.ReflTransGen (Step N) s s' ∧ Answered sizes s'.log ∧
        ∀ i < N, s'.ctl i = .run (.done (sizeResult N sizes filePerProc))) ∧
    (((List.range N).map fun j => (sizes j : Int)).sum < 2 ^ 63 →
      sizeResult N sizes true = ((List.range N).map fun j => (sizes j : Int)).sum) ∧
    ((∀ j < N, sizes j < 2 ^ 63) →
      sizeResult N sizes false = ((List.range N).map fun j => (sizes j : Int)).min?.getD 0) := by
  refine ⟨fun s h ha => ⟨h.size_agreement ha hsizes, ?_⟩, sizeResult_sum_exact, sizeResult_min_exact⟩
  obtain ⟨s', hs', ha', hfin⟩ := h.size_finishes ha
  refine ⟨s', hs', ha', fun i hi => ?_⟩
  obtain ⟨v, hv⟩ := hfin i hi
  rwa [← ((h.steps hs').size_agreement ha' hsizes).returns i v hv]

theorem dfsGetFileSize_agreement_two_fives :
    ∃ s, Relation.ReflTransGen (Step 2)
        ⟨fun i => .run (dfsGetFileSize i false .test ['f']), []⟩ s ∧
      Answered (fun _ => 5) s.log ∧ ∀ i < 2, s.ctl i = .run (.done 5) := by
  have h := dfsGetFileSize_agreement 2 (fun _ => 5) false .test ['f'] (by decide)
  obtain ⟨-, s, hs, ha, hfin⟩ := h.1 _ .init (fun _ _ _ hm => absurd hm (List.not_mem_nil _))
  refine ⟨s, hs, ha, fun i hi => ?_⟩
  rw [hfin i hi, h.2.2 (by decide)]
  rfl

/-! ## §7 A missing file -/

section Missing

variable {N : Nat} {filePerProc : Bool} {comm : Comm} {name : List Char} {s : Sys Int}
  (ns : NamespaceState) {enoent : Int}

/-- With every call answered from a namespace state that does not hold `name`, each worker
of `DFS_GetFileSize` has done nothing yet, or has returned `-1` after its lookup. -/
theorem Reachable.missing_run (he : enoent ≠ 0) (hmiss : resolve [] name ∉ ns.objects)
    (h : Reachable N (fun i => dfsGetFileSize i filePerProc comm name) s)
    (ha : AnsweredBy (fun _ c r => r = ns.answer enoent c) s.log) (i : Nat) :
    (proj i s.log = [] ∧ s.ctl i = .run (dfsGetFileSize i filePerProc comm name)) ∨
      (proj i s.log = [.call (.lookup name .rdonly) ⟨enoent, 0⟩] ∧ s.ctl i = .run (.done (-1))) :=
  dfsGetFileSize_missing_run ns he hmiss (h.runs i) fun _ _ r hm => ha i _ r (mem_proj.mp hm)

/-- Such workers are live with no collective to enter and one event each. -/
theorem Reachable.missing_live (he : enoent ≠ 0) (hmiss : resolve [] name ∉ ns.objects)
    (h : Reachable N (fun i => dfsGetFileSize i filePerProc comm name) s)
    (ha : AnsweredBy (fun _ c r => r = ns.answer enoent c) s.log) : Live N 0 1 s where
  no_abort i _ w := (h.runs i).ne_abort dfsGetFileSize_noAbort w
  sent_le i _ := by
    rcases h.missing_run ns he hmiss ha i with ⟨ht, -⟩ | ⟨ht, -⟩ <;> simp [sent, ht, Ev.sent]
  sent_done i _ _ _ := by
    rcases h.missing_run ns he hmiss ha i with ⟨ht, -⟩ | ⟨ht, -⟩ <;> simp [sent, ht, Ev.sent]
  sources i _ c k hw := by
    rcases h.missing_run ns he hmiss ha i with ⟨-, hq⟩ | ⟨-, hq⟩ <;> rw [hw] at hq <;> cases hq
  length_le i _ := by
    rcases h.missing_run ns he hmiss ha i with ⟨ht, -⟩ | ⟨ht, -⟩ <;> simp [ht]

/-- `DFS_GetFileSize` on `N` workers sharing a path that a namespace state does not hold,
every call answered from that state with a nonzero status for a missing object: from
every reachable state a schedule brings every rank back with `-1`, none having entered
an all-reduce, so the lookups of a shared path never split the ranks. -/
theorem dfsGetFileSize_missing_completes (he : enoent ≠ 0) (hmiss : resolve [] name ∉ ns.objects)
    (h : Reachable N (fun i => dfsGetFileSize i filePerProc comm name) s)
    (ha : AnsweredBy (fun _ c r => r = ns.answer enoent c) s.log) :
    ∃ s', Relation.ReflTransGen (Step N) s s' ∧
      AnsweredBy (fun _ c r => r = ns.answer enoent c) s'.log ∧
      ∀ i < N, s'.ctl i = .run (.done (-1)) ∧ sent i s'.log = [] := by
  obtain ⟨s', hs', ha', hdone⟩ :=
    h.finishes (fun _ c => show ∃ r, r = ns.answer enoent c from ⟨_, rfl⟩)
    (fun _ h ha => h.missing_live ns he hmiss ha) ha
  refine ⟨s', hs', ha', fun i hi => ?_⟩
  obtain ⟨a, hd⟩ := hdone i hi
  rcases (h.steps hs').missing_run ns he hmiss ha' i with ⟨-, hq⟩ | ⟨ht, hq⟩
  · rw [hd] at hq
    cases hq
  · exact ⟨hq, by simp [sent, ht, Ev.sent]⟩

end Missing

end IorDfs
