import IorDfs.Engine

/-!
# N Workers: the Interleaving Semantics

The driver runs SPMD: `N` processes execute the same functions, branching on their
rank. `Sys` is the state of all of them (a control point each, and one log of what
happened, in order); `Step` lets any worker take one `WorkerStep`, in any order.
Collectives are matched by position, as MPI matches them on a communicator: a
worker inside its `k`-th collective may leave once every *source* of that
collective has entered its own `k`-th (everyone for a barrier or an all-reduce,
the root for a broadcast), and it leaves with the result computed from the
sources' contributions.

A worker that ends the run (`exit`, `MPI_Abort`) simply stops; the others are not
stopped with it, since the runtime tears a job down asynchronously. Every
schedule of the real job is therefore a run of `Step`, and the safety results
below hold of it.

The two facts every protocol proof uses:
- `Reachable.runs`: each worker's own events are a run of its program;
- `Reachable.allowed`: every entry of the log was allowed when it was appended,
  so in particular a worker leaves a collective only after its sources entered it.

§3 turns progress into termination (`Reachable.finishes`).
-/

namespace IorDfs

/-- The events of worker `i`, in order. -/
def proj (i : Nat) (log : List (Nat × Ev)) : List Ev :=
  log.filterMap fun e => if e.1 = i then some e.2 else none

/-- What worker `i` contributed to its collectives, in order. -/
def sent (i : Nat) (log : List (Nat × Ev)) : List Int :=
  (proj i log).filterMap Ev.sent

/-- What worker `i` received from its collectives, in order. -/
def received (i : Nat) (log : List (Nat × Ev)) : List Int :=
  (proj i log).filterMap Ev.received

/-- The workers a collective waits for. -/
def Sources (N : Nat) : Coll → Nat → Prop
  | .bcast _ root, j => j = root
  | _, j => j < N

/-- `MPI_Allreduce` on `MPI_LONG_LONG_INT`: the sum wraps at 64 bits. -/
def ReduceOp.apply : ReduceOp → List Int → Int
  | .sum, vs => toLongLong vs.sum
  | .min, vs => vs.min?.getD 0
  | .max, vs => vs.max?.getD 0

/-- The result of the `idx`-th collective `c` of every worker, from the log. -/
def collResult (N : Nat) (log : List (Nat × Ev)) (c : Coll) (idx : Nat) : Int :=
  match c with
  | .barrier _ => 0
  | .bcast _ root => (sent root log).getD idx 0
  | .allreduce _ op => op.apply ((List.range N).map fun j => (sent j log).getD idx 0)

/-- Worker `i` may emit `e` now: a leave needs every source of its collective to
have entered it, and receives the collective's result; anything else is free. -/
def Allowed (N : Nat) (log : List (Nat × Ev)) (i : Nat) : Ev → Prop
  | .leave c x =>
    (∀ j, Sources N c j → (sent i log).length - 1 < (sent j log).length) ∧
      x = collResult N log c ((sent i log).length - 1)
  | _ => True

/-- The state of `N` workers. -/
structure Sys (α : Type) where
  ctl : Nat → Ctl α
  log : List (Nat × Ev)

/-- One step of one worker `i < N`. -/
inductive Step (N : Nat) {α : Type} : Sys α → Sys α → Prop
  | mk {s : Sys α} {i : Nat} {e : Ev} {q : Ctl α} (hi : i < N) (h : WorkerStep (s.ctl i) e q)
      (ha : Allowed N s.log i e) :
      Step N s ⟨Function.update s.ctl i q, s.log ++ [(i, e)]⟩

/-- The states `N` workers running `prog rank` can reach. -/
inductive Reachable (N : Nat) {α : Type} (prog : Nat → Prog α) : Sys α → Prop
  | init : Reachable N prog ⟨fun i => .run (prog i), []⟩
  | step {s s' : Sys α} : Reachable N prog s → Step N s s' → Reachable N prog s'

/-! ## §1 The log -/

@[simp] theorem proj_nil (i : Nat) : proj i [] = [] := rfl

theorem proj_append (i : Nat) (log : List (Nat × Ev)) (j : Nat) (e : Ev) :
    proj i (log ++ [(j, e)]) = if j = i then proj i log ++ [e] else proj i log := by
  by_cases h : j = i <;> simp [proj, h]

theorem mem_proj {i : Nat} {log : List (Nat × Ev)} {e : Ev} : e ∈ proj i log ↔ (i, e) ∈ log := by
  simp only [proj, List.mem_filterMap]
  constructor
  · rintro ⟨⟨j, e'⟩, hm, he⟩
    by_cases h : j = i <;> simp_all
  · exact fun h => ⟨(i, e), h, by simp⟩

/-- Projecting keeps the prefix order. -/
theorem proj_mono (i : Nat) {log log' : List (Nat × Ev)} (h : log <+: log') :
    proj i log <+: proj i log' :=
  h.filterMap _

/-- A prefix of `A ++ x :: B` that holds `x`, which `A` does not, holds all of `A`:
an event in a log was preceded there by everything before it in the worker's code. -/
theorem mem_of_prefix_of_mem {β : Type} {t A B : List β} {x y : β} (ht : t <+: A ++ x :: B)
    (hx : x ∈ t) (hxA : x ∉ A) (hy : y ∈ A) : y ∈ t := by
  rcases List.prefix_or_prefix_of_prefix ht (show A ++ [x] <+: A ++ x :: B from ⟨B, by simp⟩)
    with h | h
  · rcases List.prefix_concat_iff.mp h with rfl | h
    · exact List.mem_append_left _ hy
    · exact absurd (h.subset hx) hxA
  · exact h.subset (List.mem_append_left _ hy)

/-- A contribution in the log comes from one of the worker's enter events. -/
theorem mem_sent {i : Nat} {log : List (Nat × Ev)} {v : Int} (h : v ∈ sent i log) :
    ∃ c, (i, .enter c v) ∈ log := by
  obtain ⟨e, he, hv⟩ := List.mem_filterMap.mp h
  cases e with
  | enter c v' => cases hv; exact ⟨c, mem_proj.mp he⟩
  | _ => cases hv

/-- A log only grows: what worker `i` contributed before stays contributed. -/
theorem sent_prefix_snoc (i : Nat) (log : List (Nat × Ev)) (e : Nat × Ev) :
    sent i log <+: sent i (log ++ [e]) :=
  (proj_mono i (List.prefix_append _ _)).filterMap _

/-- Extending a prefix by the next element of the list it is a prefix of. -/
theorem prefix_concat_getD {β : Type} {l₁ l₂ : List β} (h : l₁ <+: l₂)
    (hl : l₁.length < l₂.length) (d : β) : l₁ ++ [l₂.getD l₁.length d] <+: l₂ := by
  obtain ⟨_ | ⟨a, t⟩, rfl⟩ := h
  · simp at hl
  · exact ⟨t, by simp [List.getD_append_right, List.getElem_append_right]⟩

theorem prefix_singleton {β : Type} {l : List β} {a : β} (h : l <+: [a]) : l = [] ∨ l = [a] := by
  rcases l with _ | ⟨b, l⟩
  · exact .inl rfl
  · obtain ⟨t, ht⟩ := h
    simp only [List.cons_append, List.cons.injEq, List.append_eq_nil] at ht
    exact .inr (by rw [ht.1, ht.2.1])

/-- Only leaving a collective waits for other workers. -/
theorem allowed_of_not_leave {N : Nat} {log : List (Nat × Ev)} {i : Nat} {e : Ev}
    (he : ∀ c x, e ≠ .leave c x) : Allowed N log i e := by
  cases e with
  | leave c x => exact absurd rfl (he c x)
  | _ => trivial

/-! ## §2 Every reachable state -/

section Reachable

variable {α : Type} {N : Nat} {prog : Nat → Prog α} {s : Sys α}

/-- Each worker's own events are a run of its program, ending at its control point. -/
theorem Reachable.runs (h : Reachable N prog s) (i : Nat) :
    WorkerRun (.run (prog i)) (proj i s.log) (s.ctl i) := by
  induction h generalizing i with
  | init => exact .refl _
  | step _ hs ih =>
    cases hs with
    | @mk j e q _ hw _ =>
    rw [proj_append]
    by_cases hij : j = i
    · subst hij
      simpa using (ih j).snoc hw
    · simpa [hij, Function.update_noteq (Ne.symm hij)] using ih i

/-- Every entry of the log was allowed when it was appended. -/
theorem Reachable.allowed (h : Reachable N prog s) :
    ∀ pre e post, s.log = pre ++ e :: post → Allowed N pre e.1 e.2 := by
  induction h with
  | init => intro pre e post h; simp at h
  | step _ hs ih =>
    cases hs with
    | mk _ _ ha =>
    intro pre e post hlog
    dsimp only at hlog
    rcases List.eq_nil_or_concat post with rfl | ⟨post', x, rfl⟩
    · obtain ⟨rfl, he⟩ := List.append_inj' hlog rfl
      cases he
      exact ha
    · rw [List.concat_eq_append, ← List.cons_append, ← List.append_assoc] at hlog
      exact ih pre e post' (List.append_inj' hlog rfl).1

/-- Only the `N` workers emit events. -/
theorem Reachable.lt_of_mem (h : Reachable N prog s) {i : Nat} {e : Ev} (he : (i, e) ∈ s.log) :
    i < N := by
  induction h with
  | init => cases he
  | step _ hs ih =>
    cases hs with
    | mk hi _ _ =>
    rcases List.mem_append.mp he with he | he
    · exact ih he
    · obtain ⟨rfl, -⟩ := Prod.mk.inj (List.mem_singleton.mp he)
      exact hi

/-- A worker inside a collective has entered one more collective than it has left. -/
theorem Reachable.sent_length_of_wait (h : Reachable N prog s) {i : Nat} {c : Coll}
    {k : Int → Prog α} (hw : s.ctl i = .wait c k) :
    (sent i s.log).length = (received i s.log).length + 1 := by
  have := (h.runs i).balance
  rwa [hw] at this

/-- Broadcasts from rank 0 deliver its values in order: when every collective the
workers leave is a broadcast rooted at rank 0, what each worker has received is a prefix
of what rank 0 has contributed. A worker's `k`-th leave reads rank 0's `k`-th
contribution, which is there since rank 0 had entered its `k`-th broadcast. -/
theorem Reachable.received_prefix (h : Reachable N prog s)
    (hb : ∀ i c x, (i, Ev.leave c x) ∈ s.log → ∃ comm, c = .bcast comm 0) (i : Nat) :
    received i s.log <+: sent 0 s.log := by
  induction h generalizing i with
  | init => exact List.nil_prefix
  | @step s₀ _ h₀ hs ih =>
    cases hs with
    | @mk j e q _ hw ha =>
    have ih := ih (fun i c x hm => hb i c x (List.mem_append_left _ hm))
    refine List.IsPrefix.trans ?_ (sent_prefix_snoc 0 s₀.log (j, e))
    dsimp only at hb ⊢
    by_cases hl : j = i ∧ ∃ c x, e = .leave c x
    · obtain ⟨rfl, c, x, rfl⟩ := hl
      obtain ⟨comm, rfl⟩ := hb j c x (List.mem_append_right _ (List.mem_singleton_self _))
      obtain ⟨k, hk, -⟩ := hw.leave_inv
      have hbal := h₀.sent_length_of_wait hk
      obtain ⟨hsrc, rfl⟩ := ha
      have hlt := hsrc 0 rfl
      rw [received, proj_append, if_pos rfl, List.filterMap_append]
      simp only [List.filterMap_cons, List.filterMap_nil, Ev.received, collResult]
      rw [hbal, Nat.add_sub_cancel]
      exact prefix_concat_getD (ih j) (by omega) 0
    · rw [received, proj_append]
      split_ifs with hji
      · cases e with
        | leave c x => exact absurd ⟨hji, c, x, rfl⟩ hl
        | _ => simpa [Ev.received] using ih i
      · exact ih i

/-- Steps from a reachable state reach reachable states. -/
theorem Reachable.steps {s' : Sys α} (h : Reachable N prog s)
    (hs : Relation.ReflTransGen (Step N) s s') : Reachable N prog s' := by
  induction hs with
  | refl => exact h
  | tail _ hst ih => exact ih.step hst

end Reachable

/-! ## §3 Runs to the end

When nothing forces a worker to end the run, `N` workers do not deadlock: from every
reachable state a schedule brings all of them back from their function. `Live` is what
a driver function has to guarantee in every reachable state for this, and
`Reachable.finishes` is the argument, once for all of them: a worker that can step alone
steps; otherwise every worker has returned or waits, and the waiting worker that has
entered the fewest collectives may leave its own. Every step uses up one event of a
bounded budget. -/

/-- Every call of worker `i` in the log was answered as `ok i` allows. -/
def AnsweredBy (ok : Nat → Call → Reply → Prop) (log : List (Nat × Ev)) : Prop :=
  ∀ i c r, (i, Ev.call c r) ∈ log → ok i c r

/-- The engine answers every call with success. -/
def Succeeds (_ : Nat) (_ : Call) (r : Reply) : Prop := r.rc = 0

theorem AnsweredBy.snoc {ok : Nat → Call → Reply → Prop} {log : List (Nat × Ev)}
    (ha : AnsweredBy ok log) {i : Nat} {e : Ev} (he : ∀ c r, e = .call c r → ok i c r) :
    AnsweredBy ok (log ++ [(i, e)]) := by
  intro j c r hm
  rcases List.mem_append.mp hm with hm | hm
  · exact ha j c r hm
  · obtain ⟨rfl, he'⟩ := Prod.mk.inj (List.mem_singleton.mp hm)
    exact he c r he'.symm

/-- What keeps `N` workers going in a state: none has ended the run; each has emitted at
most `B` events and entered at most `K` collectives, all `K` once it has returned; and a
waiting worker waits only for some of the `N`. -/
structure Live (N K B : Nat) {α : Type} (s : Sys α) : Prop where
  no_abort : ∀ i < N, ∀ w, s.ctl i ≠ .run (.abort w)
  sent_le : ∀ i < N, (sent i s.log).length ≤ K
  sent_done : ∀ i < N, ∀ a, s.ctl i = .run (.done a) → (sent i s.log).length = K
  sources : ∀ i < N, ∀ c k, s.ctl i = .wait c k → ∀ j, Sources N c j → j < N
  length_le : ∀ i < N, (proj i s.log).length ≤ B

/-- The events the `N` workers have left to emit before each has emitted `B`. -/
def budget (N B : Nat) (log : List (Nat × Ev)) : Nat :=
  ∑ i in Finset.range N, (B - (proj i log).length)

section Finish

variable {α : Type} {N K B : Nat} {prog : Nat → Prog α} {s : Sys α}
  {ok : Nat → Call → Reply → Prop}

/-- Every step within the bound uses up one event of the budget. -/
theorem budget_lt {s' : Sys α} (hs : Step N s s') (hB : ∀ i < N, (proj i s'.log).length ≤ B) :
    budget N B s'.log < budget N B s.log := by
  cases hs with
  | @mk i e q hi _ _ =>
  have hle := hB i hi
  dsimp only at hle ⊢
  rw [proj_append, if_pos rfl, List.length_append, List.length_singleton] at hle
  refine Finset.sum_lt_sum (fun j _ => ?_) ⟨i, Finset.mem_range.mpr hi, ?_⟩ <;> rw [proj_append]
  · split_ifs
    · simp only [List.length_append, List.length_singleton]; omega
    · exact le_rfl
  · rw [if_pos rfl, List.length_append, List.length_singleton]
    omega

/-- In a live state where some worker has not returned, some worker can step. -/
theorem Reachable.progress (h : Reachable N prog s) (hok : ∀ i c, ∃ r, ok i c r)
    (ha : AnsweredBy ok s.log) (hl : Live N K B s) (hnd : ∃ i < N, ∀ a, s.ctl i ≠ .run (.done a)) :
    ∃ s', Step N s s' ∧ AnsweredBy ok s'.log := by
  classical
  by_cases hloc : ∃ i < N, ∃ p, s.ctl i = .run p ∧ ∀ a, p ≠ .done a
  · obtain ⟨i, hi, p, hp, hd⟩ := hloc
    obtain ⟨e, q, hs, hlv, hc⟩ := WorkerStep.exists_of_running hd
      (fun w hw => hl.no_abort i hi w (hw ▸ hp)) fun c => (hok i c).choose
    exact ⟨_, .mk hi (hp ▸ hs) (allowed_of_not_leave hlv),
      ha.snoc fun c r he => hc c r he ▸ (hok i c).choose_spec⟩
  push_neg at hloc
  have hstate : ∀ i < N, (∃ a, s.ctl i = .run (.done a)) ∨ ∃ c k, s.ctl i = .wait c k := by
    intro i hi
    cases hq : s.ctl i with
    | run p => obtain ⟨a, rfl⟩ := hloc i hi p hq; exact .inl ⟨a, rfl⟩
    | wait c k => exact .inr ⟨c, k, rfl⟩
  let W := (Finset.range N).filter fun i => ∃ c k, s.ctl i = .wait c k
  obtain ⟨i₀, hi₀, hnd₀⟩ := hnd
  have hW : W.Nonempty := ⟨i₀, Finset.mem_filter.mpr ⟨Finset.mem_range.mpr hi₀,
    (hstate i₀ hi₀).resolve_left fun ⟨a, ha⟩ => hnd₀ a ha⟩⟩
  obtain ⟨i, hiW, hmin⟩ := W.exists_min_image (fun i => (sent i s.log).length) hW
  obtain ⟨hi, c, k, hw⟩ := Finset.mem_filter.mp hiW
  have hi := Finset.mem_range.mp hi
  have hpos := h.sent_length_of_wait hw
  obtain ⟨X, hX⟩ : ∃ X, X = collResult N s.log c ((sent i s.log).length - 1) := ⟨_, rfl⟩
  have hstep : WorkerStep (s.ctl i) (.leave c X) (.run (k X)) := by rw [hw]; exact .leave X
  refine ⟨_, .mk hi hstep ⟨fun j hj => ?_, hX⟩, ha.snoc fun _ _ he => nomatch he⟩
  have hjN := hl.sources i hi c k hw j hj
  rcases hstate j hjN with ⟨a, hd⟩ | hwj
  · have := hl.sent_done j hjN a hd
    have := hl.sent_le i hi
    omega
  · have := hmin j (Finset.mem_filter.mpr ⟨Finset.mem_range.mpr hjN, hwj⟩)
    omega

/-- From every reachable state of a program live in every reachable state, all workers
can return: a schedule whose calls are answered as `ok` allows brings each of the `N`
back from its function. -/
theorem Reachable.finishes (hok : ∀ i c, ∃ r, ok i c r)
    (hlive : ∀ s, Reachable N prog s → AnsweredBy ok s.log → Live N K B s)
    (h : Reachable N prog s) (ha : AnsweredBy ok s.log) :
    ∃ s', Relation.ReflTransGen (Step N) s s' ∧ AnsweredBy ok s'.log ∧
      ∀ i < N, ∃ a, s'.ctl i = .run (.done a) := by
  obtain ⟨n, hb⟩ : ∃ n, budget N B s.log = n := ⟨_, rfl⟩
  induction n using Nat.strong_induction_on generalizing s with
  | _ n ih =>
  by_cases hall : ∀ i < N, ∃ a, s.ctl i = .run (.done a)
  · exact ⟨s, .refl, ha, hall⟩
  push_neg at hall
  obtain ⟨s₁, hs, ha₁⟩ := h.progress hok ha (hlive s h ha) hall
  have h₁ := h.step hs
  obtain ⟨s', hs', ha', hfin⟩ := ih _ (hb ▸ budget_lt hs (hlive s₁ h₁ ha₁).length_le) h₁ ha₁ rfl
  exact ⟨s', .head hs hs', ha', hfin⟩

end Finish

end IorDfs
