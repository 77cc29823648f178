import IorDfs.Engine

/-!
# The Chunked Transfer Loop: `DFS_Xfer`

`DFS_Xfer` (lines 481-533) moves `length` bytes between the caller's buffer and the
file at `param->offset`, one engine call per pass of its loop, until `remaining`
reaches zero. The model keeps every variable of the loop (`XferState`) and the bytes
it moves: the buffer and the file as functions from offsets to bytes. The engine's
answers are a list; `pending` means the loop asked for more answers than the list
holds.

Three facts of the source decide what the loop does:
- every `dfs_read` is passed `param->offset`, which the loop never advances, while
  `ptr` does advance;
- a failed `dfs_read` only prints: the pass goes on with the `ret` of the previous
  pass (or the uninitialised one, `ret₀` here);
- the retry check `xferRetries > MAX_RETRY` is made before `xferRetries++`, on a
  short pass only.

`xferLoop_take` bounds the engine calls by `MAX_RETRY + 2` whatever they answer, and
`dfsXfer_terminates` says that within them the loop always ends as its source does;
`xferLoop_read_ok` is the exact outcome of a run of successful reads, and
`xferLoop_read_fills` what such a run leaves in the buffer. §5 says, for every engine
answer, what a write does to the file and what successful reads do to the buffer; §6
that a read which returns, whatever the engine answered, wrote nothing past `length`;
§7 that a read of what a write stored gives the written bytes back, chunk by chunk.
`MAX_RETRY` comes from a header that is not part of the source, so it is a parameter.
-/

namespace IorDfs

/-- `access` of `DFS_Xfer`. -/
inductive Access
  | write
  | read
  deriving DecidableEq, Repr

/-- The fields of `IOR_param_t` that `DFS_Xfer` reads. -/
structure XferParam where
  offset : Nat
  singleXferAttempt : Bool

/-- The loop's variables, with the bytes of the buffer and of the file. -/
structure XferState where
  xferRetries : Nat
  remaining : Int
  /-- `ptr - buffer`. -/
  ptr : Nat
  /-- `daos_size_t ret`: keeps its last value from one pass to the next. -/
  ret : Nat
  buffer : Nat → UInt8
  file : Nat → UInt8

/-- How `DFS_Xfer` ends. -/
inductive XferEnd
  | returned (v : Int)
  | abort (why : Abort)
  /-- The loop wants more engine answers than it was given. -/
  | pending
  deriving DecidableEq, Repr

/-- `dst` with its `n` bytes from `dst₀` replaced by the `n` bytes of `src` from `src₀`. -/
def copyBytes (dst : Nat → UInt8) (dst₀ : Nat) (src : Nat → UInt8) (src₀ n : Nat) : Nat → UInt8 :=
  fun k => if dst₀ ≤ k ∧ k < dst₀ + n then src (src₀ + (k - dst₀)) else dst k

/-! ## §1 The loop -/

/-- Lines 505-516: `dfs_write` of `remaining` bytes from `ptr` to `param->offset`
(`none`: it failed and the function returns `-1`), or `dfs_read` into `ptr` from
`param->offset`, which writes the count to `ret` only on success. -/
def transfer (access : Access) (param : XferParam) (s : XferState) (r : Reply) :
    Option XferState :=
  match access with
  | .write =>
    if r.rc ≠ 0 then none
    else some { s with file := copyBytes s.file param.offset s.buffer s.ptr s.remaining.toNat,
                       ret := s.remaining.toNat }
  | .read =>
    if r.rc = 0 then
      some { s with buffer := copyBytes s.buffer s.ptr s.file param.offset r.out, ret := r.out }
    else some s

/-- Lines 525-529: the asserts (`ret >= 0` holds of a `daos_size_t`) and the advance. -/
def advance (s : XferState) : Except (XferEnd × XferState) XferState :=
  if (s.ret : Int) ≤ s.remaining then
    .ok { s with remaining := s.remaining - s.ret, ptr := s.ptr + s.ret,
                 xferRetries := s.xferRetries + 1 }
  else .error (.abort .assertion, s)

/-- One pass of the loop body: the next state, or how the function ends. -/
def xferIter (maxRetry : Nat) (access : Access) (param : XferParam) (s : XferState) (r : Reply) :
    Except (XferEnd × XferState) XferState :=
  match transfer access param s r with
  | none => .error (.returned (-1), s)
  | some s =>
    if (s.ret : Int) < s.remaining then
      if param.singleXferAttempt then .error (.abort .exit, s)
      else if maxRetry < s.xferRetries then .error (.abort (.err "too many retries -- aborting"), s)
      else advance s
    else advance s

/-- `while (remaining > 0)`, one engine answer per pass; on exit `return (length)`. -/
def xferLoop (maxRetry : Nat) (access : Access) (param : XferParam) (length : Int) :
    List Reply → XferState → XferEnd × XferState
  | rs, s =>
    if s.remaining ≤ 0 then (.returned length, s)
    else
      match rs with
      | [] => (.pending, s)
      | r :: rs =>
        match xferIter maxRetry access param s r with
        | .error e => e
        | .ok s' => xferLoop maxRetry access param length rs s'

/-- `DFS_Xfer(access, file, buffer, length, param)`; `ret₀` is the indeterminate
value of the uninitialised `ret`. -/
def dfsXfer (maxRetry : Nat) (access : Access) (buffer file : Nat → UInt8) (length : Int)
    (param : XferParam) (ret₀ : Nat) (replies : List Reply) : XferEnd × XferState :=
  xferLoop maxRetry access param length replies ⟨0, length, 0, ret₀, buffer, file⟩

/-! ## §2 One pass -/

section Pass

variable {maxRetry : Nat} {access : Access} {param : XferParam} {length : Int}

@[simp] theorem xferLoop_done {rs : List Reply} {s : XferState} (h : s.remaining ≤ 0) :
    xferLoop maxRetry access param length rs s = (.returned length, s) := by
  cases rs <;> simp [xferLoop, h]

theorem xferLoop_cons {r : Reply} {rs : List Reply} {s : XferState} (h : 0 < s.remaining) :
    xferLoop maxRetry access param length (r :: rs) s =
      match xferIter maxRetry access param s r with
      | .error e => e
      | .ok s' => xferLoop maxRetry access param length rs s' := by
  rw [xferLoop, if_neg (by omega)]

/-- A pass leaves `xferRetries` alone until its advance. -/
theorem transfer_xferRetries {s s' : XferState} {r : Reply}
    (h : transfer access param s r = some s') :
    s'.xferRetries = s.xferRetries ∧ s'.remaining = s.remaining ∧ s'.ptr = s.ptr := by
  cases access <;> simp only [transfer] at h <;> split_ifs at h <;> cases h <;> simp

/-- A pass that goes on either finished the transfer, or was short and counted
as a retry while `xferRetries ≤ MAX_RETRY`. -/
theorem xferIter_ok {s s' : XferState} {r : Reply}
    (h : xferIter maxRetry access param s r = .ok s') :
    s'.remaining = 0 ∨
      (s.xferRetries ≤ maxRetry ∧ s'.xferRetries = s.xferRetries + 1 ∧ 0 < s'.remaining) := by
  unfold xferIter at h
  split at h
  · cases h
  · rename_i s₁ ht
    obtain ⟨hx, hr, -⟩ := transfer_xferRetries ht
    unfold advance at h
    split_ifs at h <;> cases h <;> simp only [hx, hr, true_and] at * <;> omega

end Pass

/-! ## §3 Every run -/

/-- `DFS_Xfer` makes at most `MAX_RETRY + 2` engine calls, whatever they answer: from a
pass with `xferRetries = k`, only the next `MAX_RETRY + 2 - k` answers are read. -/
theorem xferLoop_take (maxRetry : Nat) (access : Access) (param : XferParam) (length : Int) :
    ∀ (rs : List Reply) (s : XferState), s.xferRetries ≤ maxRetry + 1 →
      xferLoop maxRetry access param length rs s =
        xferLoop maxRetry access param length (rs.take (maxRetry + 2 - s.xferRetries)) s
  | [], _, _ => by simp
  | r :: rs, s, hk => by
    by_cases hs : s.remaining ≤ 0
    · simp [hs]
    obtain ⟨n, hn⟩ : ∃ n, maxRetry + 2 - s.xferRetries = n + 1 :=
      ⟨maxRetry + 1 - s.xferRetries, by omega⟩
    rw [hn, List.take_succ_cons, xferLoop_cons (by omega), xferLoop_cons (by omega)]
    split
    · rfl
    · rename_i s' h'
      rcases xferIter_ok h' with h0 | ⟨hk', hx, -⟩
      · simp [h0]
      · rw [xferLoop_take maxRetry access param length rs s' (by omega), hx]
        congr 2
        omega

/-- The ends `DFS_Xfer` has in its source for `access`: `return (length)`, the
`return -1` of a failed `dfs_write` (a write only), and the end of the run; `pending` is
not one of them. -/
def XferEnd.Final (access : Access) (length : Int) : XferEnd → Prop
  | .returned v => v = length ∨ (access = .write ∧ v = -1)
  | .abort _ => True
  | .pending => False

instance (access : Access) (length : Int) : DecidablePred (XferEnd.Final access length) :=
  fun e => by cases e <;> unfold XferEnd.Final <;> infer_instance

/-- Only a write can fail a pass outright: a failed `dfs_read` only prints. -/
theorem transfer_eq_none {access : Access} {param : XferParam} {s : XferState} {r : Reply}
    (h : transfer access param s r = none) : access = .write := by
  cases access
  · rfl
  · simp only [transfer] at h
    split_ifs at h

/-- A pass ends the function only as the source does. -/
theorem xferIter_error_final {maxRetry : Nat} {access : Access} {param : XferParam}
    {s : XferState} {r : Reply} {p : XferEnd × XferState} (length : Int)
    (h : xferIter maxRetry access param s r = .error p) : p.1.Final access length := by
  unfold xferIter advance at h
  split at h
  · rename_i ht
    cases h
    exact .inr ⟨transfer_eq_none ht, rfl⟩
  · split_ifs at h <;> cases h <;> trivial

/-- With `MAX_RETRY + 2 - xferRetries` answers at hand, the loop ends as the source does:
every pass that goes on uses one answer and counts one retry. -/
theorem xferLoop_final (maxRetry : Nat) (access : Access) (param : XferParam) (length : Int) :
    ∀ (rs : List Reply) (s : XferState), s.xferRetries ≤ maxRetry + 1 →
      maxRetry + 2 - s.xferRetries ≤ rs.length →
      (xferLoop maxRetry access param length rs s).1.Final access length
  | [], _, hk, hn => by simp only [List.length_nil] at hn; omega
  | r :: rs, s, hk, hn => by
    by_cases hs : s.remaining ≤ 0
    · simp [hs, XferEnd.Final]
    rw [xferLoop_cons (by omega)]
    split
    · rename_i e he
      exact xferIter_error_final length he
    · rename_i s' h'
      rcases xferIter_ok h' with h0 | ⟨hk', hx, -⟩
      · simp [h0, XferEnd.Final]
      · rw [List.length_cons] at hn
        exact xferLoop_final maxRetry access param length rs s' (by omega) (by omega)

/-- Engine answers that are all successful reads, of the counts `cs`. -/
def okReplies (cs : List Nat) : List Reply := cs.map fun c => ⟨0, c⟩

/-- Reaching `R` within `m + 1` successful reads, the first of which moved `c` bytes. -/
theorem exists_take_sum_cons (c : Nat) (cs : List Nat) (m : Nat) {R : Int} (hR : 0 < R) :
    (∃ n ≤ m + 1, (((c :: cs).take n).sum : Int) = R) ↔
      ∃ n ≤ m, ((cs.take n).sum : Int) = R - c := by
  constructor
  · rintro ⟨_ | n, hn, h⟩
    · simp only [List.take_zero, List.sum_nil, Nat.cast_zero] at h; omega
    · refine ⟨n, by omega, ?_⟩
      simp only [List.take_succ_cons, List.sum_cons, Nat.cast_add] at h
      omega
  · rintro ⟨n, hn, h⟩
    exact ⟨n + 1, by omega, by simp only [List.take_succ_cons, List.sum_cons, Nat.cast_add]; omega⟩

section Read

variable {maxRetry : Nat} {param : XferParam} {s : XferState} {c : Nat}

/-- A successful read of everything still requested ends the transfer. -/
theorem xferIter_read_full (hc : (c : Int) = s.remaining) :
    ∃ s', xferIter maxRetry .read param s ⟨0, c⟩ = .ok s' ∧ s'.remaining = 0 := by
  simp [xferIter, transfer, advance, hc]

/-- A short successful read with retries left is counted and consumed. -/
theorem xferIter_read_short (hc : (c : Int) < s.remaining)
    (hp : param.singleXferAttempt = false) (hk : s.xferRetries ≤ maxRetry) :
    ∃ s', xferIter maxRetry .read param s ⟨0, c⟩ = .ok s' ∧
      s'.remaining = s.remaining - c ∧ s'.xferRetries = s.xferRetries + 1 := by
  simp [xferIter, transfer, advance, hc, hp, Nat.not_lt.mpr hk, Int.le_of_lt hc]

/-- A short read once `xferRetries > MAX_RETRY` aborts the run. -/
theorem xferIter_read_short_last (hc : (c : Int) < s.remaining)
    (hp : param.singleXferAttempt = false) (hk : maxRetry < s.xferRetries) :
    ∃ s', xferIter maxRetry .read param s ⟨0, c⟩ =
      .error (.abort (.err "too many retries -- aborting"), s') := by
  simp [xferIter, transfer, hc, hp, hk]

/-- With `singleXferAttempt`, a short read exits. -/
theorem xferIter_read_short_single (hc : (c : Int) < s.remaining)
    (hp : param.singleXferAttempt = true) :
    ∃ s', xferIter maxRetry .read param s ⟨0, c⟩ = .error (.abort .exit, s') := by
  simp [xferIter, transfer, hc, hp]

/-- What one successful read of `c` bytes can do: when it asked for at least `c`, copy
them from `param->offset` to `ptr` and advance past them; otherwise, or when it was
short with no retry left, end the run with an abort. -/
theorem xferIter_read_cases :
    ((c : Int) ≤ s.remaining ∧ xferIter maxRetry .read param s ⟨0, c⟩ =
      .ok { s with buffer := copyBytes s.buffer s.ptr s.file param.offset c, ret := c,
                   remaining := s.remaining - c, ptr := s.ptr + c,
                   xferRetries := s.xferRetries + 1 }) ∨
    ∃ why s', xferIter maxRetry .read param s ⟨0, c⟩ = .error (.abort why, s') := by
  simp only [xferIter, transfer, advance, if_true]
  split_ifs <;> first | exact .inr ⟨_, _, rfl⟩ | exact .inl ⟨‹_›, rfl⟩

end Read

/-- A run of successful reads, each of at most the requested size, from a pass with
`xferRetries = k`: the loop returns `length` exactly when the counts add up to
`remaining` within the next `MAX_RETRY + 2 - k` reads, and otherwise aborts with
"too many retries". -/
theorem xferLoop_read_ok (maxRetry : Nat) {param : XferParam}
    (hp : param.singleXferAttempt = false) (length : Int) :
    ∀ (cs : List Nat) (s : XferState), s.xferRetries ≤ maxRetry + 1 → 0 < s.remaining →
      (∀ n, ((cs.take n).sum : Int) < s.remaining → ((cs.take (n + 1)).sum : Int) ≤ s.remaining) →
      maxRetry + 2 - s.xferRetries ≤ cs.length →
      ((xferLoop maxRetry .read param length (okReplies cs) s).1 = .returned length ↔
          ∃ n ≤ maxRetry + 2 - s.xferRetries, ((cs.take n).sum : Int) = s.remaining) ∧
        ((xferLoop maxRetry .read param length (okReplies cs) s).1 = .returned length ∨
          (xferLoop maxRetry .read param length (okReplies cs) s).1 =
            .abort (.err "too many retries -- aborting"))
  | [], s, hk, _, _, hlen => by simp at hlen; omega
  | c :: cs, s, hk, hpos, hcs, hlen => by
    obtain ⟨m, hm⟩ : ∃ m, maxRetry + 2 - s.xferRetries = m + 1 :=
      ⟨maxRetry + 1 - s.xferRetries, by omega⟩
    have hc : (c : Int) ≤ s.remaining := by simpa using hcs 0 (by simpa using hpos)
    rw [hm, exists_take_sum_cons c cs m hpos]
    simp only [okReplies, List.map_cons] at hlen ⊢
    rw [xferLoop_cons hpos]
    rcases (show (c : Int) < s.remaining ∨ (c : Int) = s.remaining by omega) with hshort | hfull
    · by_cases hmax : maxRetry < s.xferRetries
      · -- the `MAX_RETRY + 2`-th read was short
        obtain ⟨s', h'⟩ := xferIter_read_short_last hshort hp hmax
        have hm0 : m = 0 := by omega
        subst hm0
        rw [h']
        exact ⟨by simp; omega, .inr rfl⟩
      · obtain ⟨s', h', hr, hx⟩ := xferIter_read_short hshort hp (Nat.not_lt.mp hmax)
        have hm' : maxRetry + 2 - s'.xferRetries = m := by omega
        rw [h']
        have := xferLoop_read_ok maxRetry hp length cs s' (by omega) (by omega)
          (fun n hn => by
            have := hcs (n + 1)
            simp only [List.take_succ_cons, List.sum_cons, Nat.cast_add] at this
            omega) (by simp at hlen; omega)
        rwa [hm', hr] at this
    · obtain ⟨s', h', hr⟩ := xferIter_read_full hfull
      rw [h']
      simp only [xferLoop_done (show s'.remaining ≤ 0 by omega), true_iff, true_or, and_true]
      exact ⟨0, Nat.zero_le m, by simp only [List.take_zero, List.sum_nil, Nat.cast_zero]; omega⟩

/-! ## §4 What `DFS_Xfer` promises -/

/-- Every `dfs_read` is passed `param->offset` while `ptr` advances: two short reads
of one byte each fill `buffer[1]` with `file[0]` again, and `DFS_Xfer` still returns
the full length. -/
theorem dfsXfer_short_read_rereads_offset (maxRetry : Nat) :
    (dfsXfer maxRetry .read (fun _ => 0) (fun k => k.toUInt8) 2 ⟨0, false⟩ 0
        (okReplies [1, 1])).1 = .returned 2 ∧
    (dfsXfer maxRetry .read (fun _ => 0) (fun k => k.toUInt8) 2 ⟨0, false⟩ 0
        (okReplies [1, 1])).2.buffer 1 = (0 : Nat).toUInt8 := by
  simp [dfsXfer, okReplies, xferLoop, xferIter, transfer, advance, copyBytes]

/-- A run of successful reads that returns consumed reads whose counts add up to
`remaining`: the `i`-th of them wrote its `c` bytes at `ptr` plus the counts before it,
each from `param->offset` on; the rest of the buffer and the file are as they were. -/
theorem xferLoop_read_fills (maxRetry : Nat) (param : XferParam) (length : Int) :
    ∀ (cs : List Nat) (s : XferState), 0 ≤ s.remaining →
      (xferLoop maxRetry .read param length (okReplies cs) s).1 = .returned length →
      ∃ n, ((cs.take n).sum : Int) = s.remaining ∧
        (∀ pre c post, cs.take n = pre ++ c :: post → ∀ j < c,
          (xferLoop maxRetry .read param length (okReplies cs) s).2.buffer (s.ptr + pre.sum + j) =
            s.file (param.offset + j)) ∧
        (∀ k, k < s.ptr ∨ s.ptr + (cs.take n).sum ≤ k →
          (xferLoop maxRetry .read param length (okReplies cs) s).2.buffer k = s.buffer k) ∧
        (xferLoop maxRetry .read param length (okReplies cs) s).2.file = s.file
  | cs, s, hnn, h => by
    by_cases hs : s.remaining ≤ 0
    · -- nothing left to read
      rw [xferLoop_done hs]
      refine ⟨0, by simp; omega, fun pre c post hp => ?_, fun _ _ => rfl, rfl⟩
      simp at hp
    match cs, h with
    | [], h => simp [okReplies, xferLoop, hs] at h
    | c :: cs, h =>
      have hstep : okReplies (c :: cs) = ⟨0, c⟩ :: okReplies cs := rfl
      rw [hstep, xferLoop_cons (by omega)] at h ⊢
      rcases @xferIter_read_cases maxRetry param s c with
        ⟨hc, h₁⟩ | ⟨why, s', h₁⟩
      · rw [h₁] at h ⊢
        obtain ⟨n, hn, hfill, hframe, hfile⟩ :=
          xferLoop_read_fills maxRetry param length cs _ (by dsimp only; omega) h
        refine ⟨n + 1, ?_, fun pre c' post hp j hj => ?_, fun k hk => ?_, hfile⟩
        · simp only [List.take_succ_cons, List.sum_cons, Nat.cast_add] at hn ⊢
          omega
        · rw [List.take_succ_cons] at hp
          rcases pre with _ | ⟨c₀, pre⟩
          · simp only [List.nil_append, List.cons.injEq] at hp
            obtain ⟨rfl, -⟩ := hp
            rw [List.sum_nil, hframe _ (.inl (by dsimp only; omega))]
            simp [copyBytes, hj]
          · simp only [List.cons_append, List.cons.injEq] at hp
            obtain ⟨rfl, hp⟩ := hp
            have := hfill pre c' post hp j hj
            simp only [List.sum_cons] at this ⊢
            rwa [show s.ptr + (c + pre.sum) + j = s.ptr + c + pre.sum + j by omega]
        · simp only [List.take_succ_cons, List.sum_cons] at hk
          rw [hframe k (by dsimp only; omega)]
          simp only [copyBytes]
          rw [if_neg (by omega)]
      · rw [h₁] at h
        cases h

/-- A failed `dfs_read` leaves `ret` as the previous pass set it, and the loop
consumes it: after 50 of 100 bytes a failed read ends the transfer with 100
"moved"; after 60 of them the stale 60 trips `assert(ret <= remaining)`. -/
theorem dfsXfer_failed_read_reuses_ret (maxRetry : Nat) (buffer file : Nat → UInt8)
    (off ret₀ : Nat) :
    (dfsXfer maxRetry .read buffer file 100 ⟨off, false⟩ ret₀ [⟨0, 50⟩, ⟨5, 0⟩]).1 =
      .returned 100 ∧
    (dfsXfer maxRetry .read buffer file 100 ⟨off, false⟩ ret₀ [⟨0, 60⟩, ⟨5, 0⟩]).1 =
      .abort .assertion := by
  simp [dfsXfer, xferLoop, xferIter, transfer, advance]

/-- The retry check comes before `xferRetries++`, so the loop reads `MAX_RETRY + 2`
times before it gives up: `MAX_RETRY + 1` empty reads and then a full one return
the full length. -/
theorem dfsXfer_read_full_after_max_retries (maxRetry : Nat) (buffer file : Nat → UInt8)
    (off ret₀ : Nat) :
    (dfsXfer maxRetry .read buffer file 1 ⟨off, false⟩ ret₀
      (okReplies (List.replicate (maxRetry + 1) 0 ++ [1]))).1 = .returned 1 := by
  have h := (xferLoop_read_ok maxRetry (show (⟨off, false⟩ : XferParam).singleXferAttempt = false
    from rfl) 1
    (List.replicate (maxRetry + 1) 0 ++ [1]) ⟨0, 1, 0, ret₀, buffer, file⟩ (by simp) (by simp)
    (fun n _ => ?_) (by simp)).1
  · exact h.mpr ⟨maxRetry + 2, le_refl _, by simp [List.take_append_eq_append_take]⟩
  · have h1 := List.sum_take_add_sum_drop (List.replicate (maxRetry + 1) 0 ++ [1]) (n + 1)
    have h2 : (List.replicate (maxRetry + 1) 0 ++ [1]).sum = 1 := by simp
    show _ ≤ (1 : Int)
    omega

/-- For `MAX_RETRY = 10000`: after `MAX_RETRY + 1` reads the count is still `0`, yet
the `MAX_RETRY + 2`-th read completes the transfer and `DFS_Xfer` returns `1`. -/
theorem dfsXfer_read_completes_on_extra_call :
    (dfsXfer 10000 .read (fun _ => 0) (fun _ => 0) 1 ⟨0, false⟩ 0
      (okReplies (List.replicate 10001 0 ++ [1]))).1 = .returned 1 ∧
    ((List.replicate 10001 0 ++ [1]).take (10000 + 1)).sum = 0 :=
  ⟨dfsXfer_read_full_after_max_retries 10000 _ _ 0 0, by
    rw [List.take_left' (List.length_replicate _ _)]
    exact List.sum_eq_zero fun x hx => List.eq_of_mem_replicate hx⟩

/-- `DFS_Xfer(READ)` over successful reads, each of at most the size it requests: it
reads at most `MAX_RETRY + 2` times whatever the engine answers; it returns `L`
exactly when the counts reach `L` within those reads, and otherwise aborts with
"too many retries"; with `singleXferAttempt` it returns `L` when the first read is
full and exits otherwise. -/
theorem dfsXfer_read_retry_bound (maxRetry : Nat) (buffer file : Nat → UInt8) (L : Int)
    (off ret₀ : Nat) (cs : List Nat) (hL : 0 < L)
    (hcs : ∀ n, ((cs.take n).sum : Int) < L → ((cs.take (n + 1)).sum : Int) ≤ L)
    (hlen : maxRetry + 2 ≤ cs.length) :
    (∀ single rs, dfsXfer maxRetry .read buffer file L ⟨off, single⟩ ret₀ rs =
        dfsXfer maxRetry .read buffer file L ⟨off, single⟩ ret₀ (rs.take (maxRetry + 2))) ∧
    ((dfsXfer maxRetry .read buffer file L ⟨off, false⟩ ret₀ (okReplies cs)).1 = .returned L ↔
        ∃ n ≤ maxRetry + 2, ((cs.take n).sum : Int) = L) ∧
    ((dfsXfer maxRetry .read buffer file L ⟨off, false⟩ ret₀ (okReplies cs)).1 = .returned L ∨
        (dfsXfer maxRetry .read buffer file L ⟨off, false⟩ ret₀ (okReplies cs)).1 =
          .abort (.err "too many retries -- aborting")) ∧
    (dfsXfer maxRetry .read buffer file L ⟨off, true⟩ ret₀ (okReplies cs)).1 =
      if ((cs.take 1).sum : Int) = L then .returned L else .abort .exit := by
  have hrun := xferLoop_read_ok maxRetry (show (⟨off, false⟩ : XferParam).singleXferAttempt = false
    from rfl) L cs
    ⟨0, L, 0, ret₀, buffer, file⟩ (by simp) hL hcs (by simpa using hlen)
  refine ⟨fun single rs => xferLoop_take maxRetry .read ⟨off, single⟩ L rs _ (by simp),
    hrun.1, hrun.2, ?_⟩
  obtain ⟨c, cs', rfl⟩ : ∃ c cs', cs = c :: cs' :=
    List.exists_cons_of_ne_nil (by rintro rfl; simp at hlen)
  have hc : (c : Int) ≤ L := by simpa using hcs 0 (by simpa using hL)
  simp only [dfsXfer, okReplies, List.map_cons, List.take_succ_cons, List.take_zero,
    List.sum_cons, List.sum_nil, add_zero]
  rw [xferLoop_cons hL]
  by_cases hfull : (c : Int) = L
  · obtain ⟨s', h', hr⟩ := @xferIter_read_full maxRetry ⟨off, true⟩ ⟨0, L, 0, ret₀, buffer, file⟩ c hfull
    rw [h', if_pos hfull]
    simp only [xferLoop_done (show s'.remaining ≤ 0 by omega)]
  · obtain ⟨s', h'⟩ := @xferIter_read_short_single maxRetry ⟨off, true⟩ ⟨0, L, 0, ret₀, buffer, file⟩
      c (show (c : Int) < L by omega) rfl
    rw [h', if_neg hfull]

/-- `dfsXfer_read_retry_bound` at `MAX_RETRY = 0` and two one-byte reads of a
two-byte request. -/
theorem dfsXfer_read_retry_bound_two_reads :
    (0 : Int) < 2 ∧
    (∀ n, (((([1, 1] : List Nat).take n).sum : Nat) : Int) < 2 →
      (((([1, 1] : List Nat).take (n + 1)).sum : Nat) : Int) ≤ 2) ∧
    0 + 2 ≤ ([1, 1] : List Nat).length ∧
    (dfsXfer 0 .read (fun _ => 0) (fun _ => 0) 2 ⟨0, false⟩ 0 (okReplies [1, 1])).1 = .returned 2 :=
  have hcs : ∀ n, (((([1, 1] : List Nat).take n).sum : Nat) : Int) < 2 →
      (((([1, 1] : List Nat).take (n + 1)).sum : Nat) : Int) ≤ 2 := fun n _ => by
    rcases n with _ | _ | n <;> simp
  ⟨by decide, hcs, by decide,
    ((dfsXfer_read_retry_bound 0 (fun _ => 0) (fun _ => 0) 2 0 0 [1, 1] (by decide) hcs
      (by decide)).2.1).mpr ⟨2, le_refl _, by decide⟩⟩

/-! ## §5 The bytes moved

What the function does to the buffer and the file, over every engine answer. -/

/-- One write pass: a failed `dfs_write` returns `-1` at once; a successful one writes the
`remaining` bytes from `ptr` to `param->offset` and sets `ret = remaining`, which ends
the loop. -/
theorem xferIter_write (maxRetry : Nat) (param : XferParam) (s : XferState) (r : Reply)
    (hs : 0 ≤ s.remaining) :
    xferIter maxRetry .write param s r =
      if r.rc ≠ 0 then .error (.returned (-1), s)
      else .ok { s with file := copyBytes s.file param.offset s.buffer s.ptr s.remaining.toNat,
                        ret := s.remaining.toNat, remaining := 0,
                        ptr := s.ptr + s.remaining.toNat, xferRetries := s.xferRetries + 1 } := by
  have h₁ : ((s.remaining.toNat : Nat) : Int) = s.remaining := Int.toNat_of_nonneg hs
  by_cases hr : r.rc ≠ 0
  · simp [xferIter, transfer, hr]
  · simp [xferIter, transfer, hr, advance, h₁]

/-- `DFS_Xfer(WRITE)` of `L > 0` bytes reads one engine answer and leaves the buffer
alone. When `dfs_write` succeeds it returns `L`, the file holds the buffer's first `L`
bytes at `param->offset` and is unchanged elsewhere; when it fails it returns `-1` and
the file is unchanged. -/
theorem dfsXfer_write_spec (maxRetry : Nat) (buffer file : Nat → UInt8) {L : Int}
    (param : XferParam) (ret₀ : Nat) (r : Reply) (rs : List Reply) (hL : 0 < L) :
    (dfsXfer maxRetry .write buffer file L param ret₀ (r :: rs)).2.buffer = buffer ∧
    (r.rc = 0 → (dfsXfer maxRetry .write buffer file L param ret₀ (r :: rs)).1 = .returned L ∧
      (∀ k : Nat, (k : Int) < L →
        (dfsXfer maxRetry .write buffer file L param ret₀ (r :: rs)).2.file (param.offset + k) =
          buffer k) ∧
      ∀ k : Nat, k < param.offset ∨ (param.offset : Int) + L ≤ k →
        (dfsXfer maxRetry .write buffer file L param ret₀ (r :: rs)).2.file k = file k) ∧
    (r.rc ≠ 0 → (dfsXfer maxRetry .write buffer file L param ret₀ (r :: rs)).1 = .returned (-1) ∧
      (dfsXfer maxRetry .write buffer file L param ret₀ (r :: rs)).2.file = file) := by
  simp only [dfsXfer]
  rw [xferLoop_cons hL, xferIter_write _ _ _ _ hL.le]
  by_cases hr : r.rc = 0
  · rw [if_neg (not_not.mpr hr)]
    dsimp only
    rw [xferLoop_done (le_refl _)]
    refine ⟨rfl, fun _ => ⟨rfl, fun k hk => ?_, fun k hk => ?_⟩, fun h => absurd hr h⟩
    · simp [copyBytes]
      omega
    · simp only [copyBytes]
      rw [if_neg (by omega)]
  · rw [if_pos hr]
    exact ⟨rfl, fun h => absurd h hr, fun _ => ⟨rfl, rfl⟩⟩

/-- `DFS_Xfer(READ)` of `L ≥ 0` bytes over successful reads, when it returns `L`: the
reads it consumed add up to `L`, and the `i`-th of them filled the buffer from the sum
of the counts before it with the file's bytes from `param->offset` on, always the same
offset; the buffer past `L` and the file are unchanged. So the buffer holds the file's
bytes `param->offset .. param->offset + L` when the first read is full, and repeats the
file's first bytes at each later read otherwise. -/
theorem dfsXfer_read_fills_buffer (maxRetry : Nat) (buffer file : Nat → UInt8) {L : Int}
    (param : XferParam) (ret₀ : Nat) (cs : List Nat) (hL : 0 ≤ L)
    (h : (dfsXfer maxRetry .read buffer file L param ret₀ (okReplies cs)).1 = .returned L) :
    ∃ n, ((cs.take n).sum : Int) = L ∧
      (∀ pre c post, cs.take n = pre ++ c :: post → ∀ j < c,
        (dfsXfer maxRetry .read buffer file L param ret₀ (okReplies cs)).2.buffer (pre.sum + j) =
          file (param.offset + j)) ∧
      (∀ k : Nat, L ≤ k →
        (dfsXfer maxRetry .read buffer file L param ret₀ (okReplies cs)).2.buffer k = buffer k) ∧
      (dfsXfer maxRetry .read buffer file L param ret₀ (okReplies cs)).2.file = file := by
  obtain ⟨n, hn, hfill, hframe, hfile⟩ :=
    xferLoop_read_fills maxRetry param L cs ⟨0, L, 0, ret₀, buffer, file⟩ hL h
  refine ⟨n, hn, fun pre c post hp j hj => ?_, fun k hk => hframe k (.inr ?_), hfile⟩
  · simpa using hfill pre c post hp j hj
  · dsimp only at hn ⊢
    omega

theorem dfsXfer_read_fills_buffer_two_reads :
    ∃ n, ((([1, 1] : List Nat).take n).sum : Int) = 2 ∧
      ∀ pre c post, ([1, 1] : List Nat).take n = pre ++ c :: post → ∀ j < c,
        (dfsXfer 0 .read (fun _ => 0) (fun k => k.toUInt8) 2 ⟨0, false⟩ 0
          (okReplies [1, 1])).2.buffer (pre.sum + j) = (0 + j).toUInt8 :=
  have h := dfsXfer_read_fills_buffer 0 (fun _ => 0) (fun k => k.toUInt8) ⟨0, false⟩ 0 [1, 1]
    (show (0 : Int) ≤ 2 by decide)
    (by simp [dfsXfer, okReplies, xferLoop, xferIter, transfer, advance])
  h.imp fun _ h => ⟨h.1, h.2.1⟩

/-! ## §6 A read stays in its buffer

Whatever the engine answers, failed reads and the stale `ret` they leave included, the
assertion `ret <= remaining` keeps `ptr + remaining` at `length`, so a read that returns
has written only the buffer's first `length` bytes. -/

/-- A read writes the buffer only from `ptr` on, `ret` bytes of it, and moves nothing else. -/
theorem transfer_read (param : XferParam) (s : XferState) (r : Reply) :
    ∃ s₁, transfer .read param s r = some s₁ ∧ s₁.ptr = s.ptr ∧ s₁.remaining = s.remaining ∧
      s₁.file = s.file ∧ ∀ k, (k < s.ptr ∨ s.ptr + s₁.ret ≤ k) → s₁.buffer k = s.buffer k := by
  simp only [transfer]
  by_cases hr : r.rc = 0
  · refine ⟨_, if_pos hr, rfl, rfl, rfl, fun k hk => ?_⟩
    dsimp only at hk ⊢
    simp only [copyBytes]
    rw [if_neg (by omega)]
  · exact ⟨_, if_neg hr, rfl, rfl, rfl, fun _ _ => rfl⟩

section ReadPass

variable {maxRetry : Nat} {param : XferParam} {s s' : XferState} {r : Reply}

/-- A read pass that goes on advanced by its `ret`, at most `remaining`, and wrote the
buffer only from `ptr` on, `ret` bytes of it. -/
theorem xferIter_read_advance (h : xferIter maxRetry .read param s r = .ok s') :
    (s'.ret : Int) ≤ s.remaining ∧ s'.ptr = s.ptr + s'.ret ∧
      s'.remaining = s.remaining - s'.ret ∧ s'.file = s.file ∧
      ∀ k, (k < s.ptr ∨ s.ptr + s'.ret ≤ k) → s'.buffer k = s.buffer k := by
  obtain ⟨s₁, hs₁, hptr, hrem, hfile, hbuf⟩ := transfer_read param s r
  simp only [xferIter, hs₁] at h
  have hadv : advance s₁ = .ok s' := by split_ifs at h <;> exact h
  simp only [advance] at hadv
  split_ifs at hadv with hle
  cases hadv
  exact ⟨hrem ▸ hle, by simp [hptr], by simp [hrem], hfile, hbuf⟩

/-- A read pass ends the run only with an abort: `return (length)` is past the loop. -/
theorem xferIter_read_error {p : XferEnd × XferState}
    (h : xferIter maxRetry .read param s r = .error p) : ∃ w, p.1 = .abort w := by
  obtain ⟨s₁, hs₁, -⟩ := transfer_read param s r
  simp only [xferIter, hs₁] at h
  split_ifs at h <;> (try simp only [advance] at h) <;> (try split_ifs at h) <;> cases h <;>
    exact ⟨_, rfl⟩

end ReadPass

/-- A read run that returns wrote neither the buffer from `ptr + remaining` on nor the
file. -/
theorem xferLoop_read_frame (maxRetry : Nat) (param : XferParam) (length : Int) :
    ∀ (rs : List Reply) (s : XferState),
      (xferLoop maxRetry .read param length rs s).1 = .returned length →
      (∀ k : Nat, (s.ptr : Int) + s.remaining ≤ k →
        (xferLoop maxRetry .read param length rs s).2.buffer k = s.buffer k) ∧
      (xferLoop maxRetry .read param length rs s).2.file = s.file
  | rs, s, h => by
    by_cases hs : s.remaining ≤ 0
    · rw [xferLoop_done hs]
      exact ⟨fun _ _ => rfl, rfl⟩
    match rs, h with
    | [], h => simp [xferLoop, hs] at h
    | r :: rs, h =>
      rw [xferLoop_cons (by omega)] at h ⊢
      rcases h₁ : xferIter maxRetry .read param s r with p | s₁ <;> rw [h₁] at h <;>
        dsimp only at h
      · -- a pass that ends the run aborts
        obtain ⟨w, hw⟩ := xferIter_read_error h₁
        rw [hw] at h
        cases h
      obtain ⟨hret, hptr, hrem, hfile, hbuf⟩ := xferIter_read_advance h₁
      obtain ⟨hframe, hfile'⟩ := xferLoop_read_frame maxRetry param length rs s₁ h
      refine ⟨fun k hk => ?_, hfile'.trans hfile⟩
      rw [hframe k (by omega), hbuf k (.inr (by omega))]

/-- `DFS_Xfer(READ)` of `L ≥ 0` bytes, whatever the engine answers (failed reads, short
ones, the stale `ret` a failed read leaves): when it returns `L` it has written no byte
of the buffer from `L` on, and no byte of the file. -/
theorem dfsXfer_read_stays_in_buffer (maxRetry : Nat) (buffer file : Nat → UInt8) {L : Int}
    (param : XferParam) (ret₀ : Nat) (replies : List Reply)
    (h : (dfsXfer maxRetry .read buffer file L param ret₀ replies).1 = .returned L) :
    (∀ k : Nat, L ≤ k → (dfsXfer maxRetry .read buffer file L param ret₀ replies).2.buffer k =
      buffer k) ∧ (dfsXfer maxRetry .read buffer file L param ret₀ replies).2.file = file := by
  obtain ⟨hframe, hfile⟩ :=
    xferLoop_read_frame maxRetry param L replies ⟨0, L, 0, ret₀, buffer, file⟩ h
  exact ⟨fun k hk => hframe k (by simpa using hk), hfile⟩

theorem dfsXfer_read_stays_in_buffer_failed_read :
    (dfsXfer 0 .read (fun _ => 0) (fun _ => 1) 100 ⟨0, false⟩ 0 [⟨0, 50⟩, ⟨5, 0⟩]).2.buffer 100 = 0 :=
  (dfsXfer_read_stays_in_buffer 0 (fun _ => 0) (fun _ => 1) ⟨0, false⟩ 0 [⟨0, 50⟩, ⟨5, 0⟩]
    (by simp [dfsXfer, xferLoop, xferIter, transfer, advance])).1 100 (by decide)

/-! ## §7 What a read gives back

A write and then a read of the same range through the backend: every chunk the read
fills holds the first bytes written, so a read whose first answer is full gives the
written buffer back. -/

/-- A successful write of `L > 0` bytes leaves the file as `copyBytes` of the buffer's
first `L` bytes at `param->offset`. -/
theorem dfsXfer_write_file (maxRetry : Nat) (buffer file : Nat → UInt8) {L : Int}
    (param : XferParam) (ret₀ : Nat) {r : Reply} (rs : List Reply) (hL : 0 < L) (hr : r.rc = 0) :
    (dfsXfer maxRetry .write buffer file L param ret₀ (r :: rs)).2.file =
      copyBytes file param.offset buffer 0 L.toNat := by
  simp only [dfsXfer]
  rw [xferLoop_cons hL, xferIter_write _ _ _ _ hL.le, if_neg (not_not.mpr hr)]
  dsimp only
  rw [xferLoop_done (le_refl _)]

/-- `DFS_Xfer(WRITE)` of `L > 0` bytes of `written` at `param->offset` that succeeds, then
`DFS_Xfer(READ)` of `L` bytes at the same offset over successful reads that returns:
every chunk the read filled holds the first bytes written, the `i`-th from the sum of
the counts before it on. -/
theorem dfsXfer_read_returns_written (maxRetry : Nat) (written file buffer : Nat → UInt8)
    {L : Int} (param : XferParam) (ret₀ ret₁ : Nat) {r : Reply} (rs : List Reply) (cs : List Nat)
    (hL : 0 < L) (hr : r.rc = 0)
    (h : (dfsXfer maxRetry .read buffer
      (dfsXfer maxRetry .write written file L param ret₀ (r :: rs)).2.file L param ret₁
      (okReplies cs)).1 = .returned L) :
    ∃ n, ((cs.take n).sum : Int) = L ∧ ∀ pre c post, cs.take n = pre ++ c :: post → ∀ j < c,
      (dfsXfer maxRetry .read buffer
        (dfsXfer maxRetry .write written file L param ret₀ (r :: rs)).2.file L param ret₁
        (okReplies cs)).2.buffer (pre.sum + j) = written j := by
  rw [dfsXfer_write_file maxRetry written file param ret₀ rs hL hr] at h ⊢
  obtain ⟨n, hn, hfill, -⟩ := xferLoop_read_fills maxRetry param L cs _ hL.le h
  refine ⟨n, hn, fun pre c post hp j hj => ?_⟩
  -- the chunk lies inside the `L` bytes written
  have hc : pre.sum + c ≤ (cs.take n).sum := by simp [hp]
  have hread := hfill pre c post hp j hj
  simp only [zero_add] at hread hn
  refine hread.trans ?_
  dsimp only
  rw [copyBytes, if_pos ⟨by omega, by omega⟩]
  congr 1
  omega

theorem dfsXfer_read_returns_written_one_read :
    ∃ n, ((([3] : List Nat).take n).sum : Int) = 3 ∧
      ∀ pre c post, ([3] : List Nat).take n = pre ++ c :: post → ∀ j < c,
        (dfsXfer 0 .read (fun _ => 0)
          (dfsXfer 0 .write (fun k => k.toUInt8) (fun _ => 9) 3 ⟨5, false⟩ 0 [⟨0, 0⟩]).2.file
          3 ⟨5, false⟩ 0 (okReplies [3])).2.buffer (pre.sum + j) = j.toUInt8 :=
  dfsXfer_read_returns_written 0 (fun k => k.toUInt8) (fun _ => 9) (fun _ => 0) ⟨5, false⟩ 0 0 []
    [3] (by decide) rfl (by simp [dfsXfer, okReplies, xferLoop, xferIter, transfer, advance])

end IorDfs
