import IorDfs.Protocol
import IorDfs.Collectives

/-!
# Teardown: Every Rank Decides Alike on Rank 0's Status

`DFS_Finalize` (lines 357-386) unmounts and closes on every rank, lets rank 0 destroy
the container when `dfs.destroy` is set, and broadcasts rank 0's status "so that every
rank decides the same way" on it. This module proves that it does, over every
interleaving of `N` workers and every engine answer:

- every rank that has passed the broadcast received rank 0's status, that of the
  destroy when rank 0 destroys and that of its close otherwise;
- a rank ends the run with "Failed to destroy container" exactly when that status is
  negative, so either every rank that passed the broadcast stops there or none does;
- the `DCHECK` after `daos_pool_disconnect` never fires. It checks the broadcast
  status again, which has passed the first check by then; the disconnect's own status
  is never read.

With an engine that answers every call with success, every rank returns.

## Method

`dfsFinalize_ends` says where one worker can stop, in terms of the status it received;
`Reachable.received_prefix` says that the status received is rank 0's.
-/

namespace IorDfs

/-! ## §1 Where one rank stops -/

section Worker

variable {rank : Nat} {o : DfsOptions} {t : List Ev} {q : Ctl Unit}

theorem finalizeTail_callsAtMost (x : Int) : (finalizeTail x).CallsAtMost 2 := by
  have rest : Prog.CallsAtMost 2 (.call .poolDisconnect fun _ =>
      dcheck x "Failed to disconnect from pool" <|
      .call .daosFini fun r => dcheck r.rc "Failed to finalize DAOS" (.done ())) :=
    ⟨by omega, fun _ => .dcheck ⟨by omega, fun _ => .dcheck trivial⟩⟩
  simp only [finalizeTail]
  split
  exacts [.dcheck rest, rest]

/-- After the broadcast, a negative status ends the run at once with "Failed to destroy
container"; any other status is checked again after the disconnect, which passes, so
only a failed `daos_fini` can end the run. -/
theorem finalizeTail_ends {x : Int} (h : WorkerRun (.run (finalizeTail x)) t q) :
    (x < 0 ∧ t = [] ∧ q = .run (.abort (.dcheck "Failed to destroy container"))) ∨
      (0 ≤ x ∧ ∀ w, q = .run (.abort w) →
        ∃ f, Ev.call .daosFini f ∈ t ∧ f.rc < 0 ∧ w = .dcheck "Failed to finalize DAOS") := by
  by_cases hx : x < 0
  · rw [finalizeTail, if_pos hx.ne, dcheck, if_pos hx] at h
    obtain ⟨rfl, rfl⟩ := h.abort_inv
    exact .inl ⟨hx, rfl, rfl⟩
  have hrest : finalizeTail x = .call .poolDisconnect fun _ =>
      .call .daosFini fun r => dcheck r.rc "Failed to finalize DAOS" (.done ()) := by
    simp only [finalizeTail, dcheck, if_neg hx, ite_self]
  rw [hrest] at h
  refine .inr ⟨not_lt.mp hx, fun w hw => ?_⟩
  rcases h.call_inv with ⟨rfl, rfl⟩ | ⟨p, t, rfl, h₁⟩
  · cases hw
  rcases h₁.call_inv with ⟨rfl, rfl⟩ | ⟨f, t, rfl, h₂⟩
  · cases hw
  rcases h₂.dcheck_cases with ⟨hf, rfl, rfl⟩ | ⟨-, h₃⟩
  · cases hw
    exact ⟨f, by simp, hf, rfl⟩
  · cases h₃.done_inv.2 ▸ hw

/-- A run that has not left the broadcast has received nothing, and has ended the run
only on a failed unmount or close. -/
def BeforeBcast (t : List Ev) (q : Ctl Unit) : Prop :=
  t.filterMap Ev.received = [] ∧ ∀ w, q = .run (.abort w) → ∃ c r, Ev.call c r ∈ t ∧ r.rc < 0 ∧
    (w = .dcheck "Failed to umount DFS namespace" ∨ w = .dcheck "Failed to close container")

/-- A run that has left the broadcast with `x`: a negative status has ended it with "Failed
to destroy container"; otherwise only a failed `daos_fini` can have ended it. -/
def AfterBcast (t : List Ev) (q : Ctl Unit) : Prop :=
  ∃ x, t.filterMap Ev.received = [x] ∧
    ((x < 0 ∧ q = .run (.abort (.dcheck "Failed to destroy container"))) ∨
      (0 ≤ x ∧ ∀ w, q = .run (.abort w) →
        ∃ f, Ev.call .daosFini f ∈ t ∧ f.rc < 0 ∧ w = .dcheck "Failed to finalize DAOS"))

/-- The broadcast of `DFS_Finalize` and what follows it, after events `A` of calls only. -/
theorem bcast_ends {A : List Ev} {v : Int} (hA : ∀ e ∈ A, ∃ c r, e = .call c r)
    (h : WorkerRun (.run (.coll (.bcast .world 0) v finalizeTail)) t q) :
    BeforeBcast (A ++ t) q ∨ AfterBcast (A ++ t) q := by
  have hA' : A.filterMap Ev.received = [] := List.filterMap_eq_nil_iff.mpr fun e he => by
    obtain ⟨c, r, rfl⟩ := hA e he; rfl
  rcases h.coll_inv with ⟨rfl, rfl⟩ | ⟨rfl, rfl⟩ | ⟨x, t, rfl, h₁⟩
  · exact .inl ⟨by simpa using hA', by simp⟩
  · exact .inl ⟨by simpa [Ev.received] using hA', by simp⟩
  have hcalls := (h₁.callsAtMost (finalizeTail_callsAtMost x)).2
  have ht : t.filterMap Ev.received = [] := List.filterMap_eq_nil_iff.mpr fun e he => by
    obtain ⟨c, r, rfl⟩ := hcalls e he; rfl
  refine .inr ⟨x, by simp [List.filterMap_append, hA', ht, Ev.received], ?_⟩
  rcases finalizeTail_ends h₁ with ⟨hx, -, hq⟩ | ⟨hx, hq⟩
  · exact .inl ⟨hx, hq⟩
  · refine .inr ⟨hx, fun w hw => ?_⟩
    obtain ⟨f, hf, hrc, rfl⟩ := hq w hw
    exact ⟨f, by simp [hf], hrc, rfl⟩

/-- Where a rank can stop in `DFS_Finalize`: before the broadcast only on a failed unmount
or close, after it as the status it received decides. No rank stops on the check after
the pool disconnect. -/
theorem dfsFinalize_ends (h : WorkerRun (.run (dfsFinalize rank o)) t q) :
    BeforeBcast t q ∨ AfterBcast t q := by
  rcases h.call_inv with ⟨rfl, rfl⟩ | ⟨r, t, rfl, h₁⟩
  · exact .inl ⟨rfl, by simp⟩
  rcases h₁.dcheck_cases with ⟨hr, rfl, rfl⟩ | ⟨-, h₂⟩
  · exact .inl ⟨rfl, fun w hw => ⟨.dfsUmount, r, by simp, hr, .inl (by cases hw; rfl)⟩⟩
  rcases h₂.call_inv with ⟨rfl, rfl⟩ | ⟨c, t, rfl, h₃⟩
  · exact .inl ⟨rfl, by simp⟩
  rcases h₃.dcheck_cases with ⟨hc, rfl, rfl⟩ | ⟨-, h₄⟩
  · exact .inl ⟨rfl, fun w hw => ⟨.contClose, c, by simp, hc, .inr (by cases hw; rfl)⟩⟩
  by_cases hd : rank = 0 ∧ o.destroy = true
  · rw [if_pos hd] at h₄
    simp only [Prog.call_bind, Prog.done_bind] at h₄
    rcases h₄.call_inv with ⟨rfl, rfl⟩ | ⟨u, t, rfl, h₅⟩
    · exact .inl ⟨rfl, by simp⟩
    rcases h₅.call_inv with ⟨rfl, rfl⟩ | ⟨d, t, rfl, h₆⟩
    · exact .inl ⟨rfl, by simp⟩
    simpa using bcast_ends (A := [.call .dfsUmount r, .call .contClose c,
      .call (.uuidParse (o.cont.getD "")) u, .call .contDestroy d]) (by simp) h₆
  · rw [if_neg hd, Prog.done_bind] at h₄
    simpa using bcast_ends (A := [.call .dfsUmount r, .call .contClose c]) (by simp) h₄

end Worker

/-! ## §2 Every rank decides alike -/

section Decided

variable {N : Nat} {o : DfsOptions} {s : Sys Unit}

/-- Every rank has left only broadcasts from rank 0. -/
theorem Reachable.finalize_leave_bcast (h : Reachable N (fun i => dfsFinalize i o) s) {i : Nat}
    {c : Coll} {x : Int} (hm : (i, Ev.leave c x) ∈ s.log) : ∃ comm, c = .bcast comm 0 := by
  obtain ⟨r, c', u, d, x', p, f, ht⟩ := dfsFinalize_run (h.runs i)
  have hmem := ht.subset (mem_proj.mpr hm)
  simp only [finalizeTrace, List.mem_cons, List.mem_append, List.mem_singleton] at hmem
  split_ifs at hmem <;> simp at hmem <;> exact ⟨_, hmem.1⟩

/-- Rank 0's events follow the trace of a `DFS_Finalize` whose status is `status`, and
every rank has received at most that status. -/
theorem Reachable.finalize_status (h : Reachable N (fun i => dfsFinalize i o) s) :
    ∃ r c u d x p f, proj 0 s.log <+: finalizeTrace o.destroy (o.cont.getD "") r c u d x p f ∧
      ∀ i, received i s.log <+: [if o.destroy then d.rc else c.rc] := by
  obtain ⟨r, c, u, d, x, p, f, ht⟩ := dfsFinalize_run (h.runs 0)
  have hd : decide (0 = 0 ∧ o.destroy = true) = o.destroy := by cases o.destroy <;> rfl
  rw [hd] at ht
  refine ⟨r, c, u, d, x, p, f, ht, fun i => ?_⟩
  refine (h.received_prefix (fun _ _ _ hm => h.finalize_leave_bcast hm) i).trans ?_
  simpa [sent_finalizeTrace] using ht.filterMap Ev.sent

/-- How the ranks leave `DFS_Finalize`, in one state. -/
structure FinalizeDecided (o : DfsOptions) (s : Sys Unit) : Prop where
  /-- Every rank that has passed the broadcast received rank 0's status: that of the
  destroy when rank 0 destroys, that of its close otherwise. -/
  status : ∃ r c u d x p f, proj 0 s.log <+: finalizeTrace o.destroy (o.cont.getD "") r c u d x p f ∧
    ∀ i, received i s.log <+: [if o.destroy then d.rc else c.rc]
  /-- A rank stops on "Failed to destroy container" exactly when it received a negative
  status. -/
  destroy_failed : ∀ i, s.ctl i = .run (.abort (.dcheck "Failed to destroy container")) ↔
    ∃ x < 0, received i s.log = [x]
  /-- So when one rank stops there, so does every rank that has passed the broadcast. -/
  alike : ∀ i j, s.ctl i = .run (.abort (.dcheck "Failed to destroy container")) →
    received j s.log ≠ [] → s.ctl j = .run (.abort (.dcheck "Failed to destroy container"))
  /-- No rank stops on the check after `daos_pool_disconnect`. -/
  disconnect_passes : ∀ i, s.ctl i ≠ .run (.abort (.dcheck "Failed to disconnect from pool"))

theorem Reachable.destroy_failed_iff (h : Reachable N (fun i => dfsFinalize i o) s) (i : Nat) :
    s.ctl i = .run (.abort (.dcheck "Failed to destroy container")) ↔
      ∃ x < 0, received i s.log = [x] := by
  rcases dfsFinalize_ends (h.runs i) with ⟨hr, hab⟩ | ⟨x, hr, ⟨hx, hq⟩ | ⟨hx, hab⟩⟩
  · refine ⟨fun hq => ?_, fun ⟨x, _, hx⟩ => by simp [received, hr] at hx⟩
    obtain ⟨c, r, -, -, hw⟩ := hab _ hq
    simp at hw
  · exact ⟨fun _ => ⟨x, hx, hr⟩, fun _ => hq⟩
  · refine ⟨fun hq => ?_, fun ⟨y, hy, hr'⟩ => ?_⟩
    · obtain ⟨f, -, -, hw⟩ := hab _ hq
      simp at hw
    · rw [received, hr, List.singleton_inj] at hr'
      omega

/-- `DFS_Finalize` on `N` workers, over every interleaving and every engine answer. -/
theorem dfsFinalize_decided (h : Reachable N (fun i => dfsFinalize i o) s) :
    FinalizeDecided o s where
  status := h.finalize_status
  destroy_failed := h.destroy_failed_iff
  alike i j hi hj := by
    obtain ⟨r, c, u, d, x, p, f, -, hrecv⟩ := h.finalize_status
    obtain ⟨x, hx, hxi⟩ := (h.destroy_failed_iff i).mp hi
    refine (h.destroy_failed_iff j).mpr ⟨x, hx, ?_⟩
    rcases prefix_singleton (hrecv j) with hj' | hj'
    · exact absurd hj' hj
    · rw [hj', ← (prefix_singleton (hrecv i)).resolve_left (by simp [hxi]), hxi]
  disconnect_passes i hq := by
    rcases dfsFinalize_ends (h.runs i) with ⟨-, hab⟩ | ⟨x, -, ⟨-, hq'⟩ | ⟨-, hab⟩⟩
    · obtain ⟨c, r, -, -, hw⟩ := hab _ hq
      simp at hw
    · simp [hq] at hq'
    · obtain ⟨f, -, -, hw⟩ := hab _ hq
      simp at hw

theorem dfsFinalize_decided_failed_destroy :
    ∃ s, Reachable 2 (fun i => dfsFinalize i ⟨none, none, none, some "c", true⟩) s ∧
      (0, .call .contDestroy ⟨-1, 0⟩) ∈ s.log ∧ received 1 s.log = [-1] ∧
      (∀ i < 2, s.ctl i = .run (.abort (.dcheck "Failed to destroy container"))) ∧
      FinalizeDecided ⟨none, none, none, some "c", true⟩ s := by
  have h : Reachable 2 (fun i => dfsFinalize i ⟨none, none, none, some "c", true⟩) _ :=
    .step (.step (.step (.step (.step (.step (.step (.step (.step (.step .init
      (.mk (i := 0) (by decide) (.call ⟨0, 0⟩) trivial))
      (.mk (i := 0) (by decide) (.call ⟨0, 0⟩) trivial))
      (.mk (i := 0) (by decide) (.call ⟨0, 0⟩) trivial))
      (.mk (i := 0) (by decide) (.call ⟨-1, 0⟩) trivial))
      (.mk (i := 1) (by decide) (.call ⟨0, 0⟩) trivial))
      (.mk (i := 1) (by decide) (.call ⟨0, 0⟩) trivial))
      (.mk (i := 0) (by decide) .enter trivial))
      (.mk (i := 1) (by decide) .enter trivial))
      (.mk (i := 0) (by decide) (.leave (-1)) ⟨fun j (hj : j = 0) => by subst hj; decide, rfl⟩))
      (.mk (i := 1) (by decide) (.leave (-1)) ⟨fun j (hj : j = 0) => by subst hj; decide, rfl⟩)
  refine ⟨_, h, by simp, rfl, fun i hi => ?_, dfsFinalize_decided h⟩
  interval_cases i <;> rfl

end Decided

/-! ## §3 Every rank returns -/

section Finish

variable {N : Nat} {o : DfsOptions} {s : Sys Unit}

/-- Rank 0 broadcasts the status of one of its calls. -/
theorem Reachable.finalize_sent_rc (h : Reachable N (fun i => dfsFinalize i o) s) {v : Int}
    (hv : v ∈ sent 0 s.log) : ∃ c r, (0, Ev.call c r) ∈ s.log ∧ v = r.rc := by
  obtain ⟨c', he⟩ := mem_sent hv
  have he := mem_proj.mpr he
  obtain ⟨r, c, u, d, x, p, f, ht, -⟩ := h.finalize_status
  cases hd : o.destroy <;> rw [hd] at ht
  · have ht : proj 0 s.log <+: [.call .dfsUmount r, .call .contClose c] ++
        .enter (.bcast .world 0) c.rc :: [.leave (.bcast .world 0) x, .call .poolDisconnect p,
          .call .daosFini f] := ht
    obtain ⟨rfl, rfl⟩ : c' = .bcast .world 0 ∧ v = c.rc := by simpa using ht.subset he
    exact ⟨.contClose, c, mem_proj.mp (mem_of_prefix_of_mem ht he (by simp) (by simp)), rfl⟩
  · have ht : proj 0 s.log <+: [.call .dfsUmount r, .call .contClose c,
        .call (.uuidParse (o.cont.getD "")) u, .call .contDestroy d] ++
        .enter (.bcast .world 0) d.rc :: [.leave (.bcast .world 0) x, .call .poolDisconnect p,
          .call .daosFini f] := ht
    obtain ⟨rfl, rfl⟩ : c' = .bcast .world 0 ∧ v = d.rc := by simpa using ht.subset he
    exact ⟨.contDestroy, d, mem_proj.mp (mem_of_prefix_of_mem ht he (by simp) (by simp)), rfl⟩

/-- With every call succeeding, `DFS_Finalize` keeps `N` workers live: no rank ends the
run, since the status rank 0 broadcasts is that of a call, each emits at most eight
events and enters one broadcast, and a broadcast waits only for rank 0. -/
theorem Reachable.finalize_live (hN : 0 < N) (h : Reachable N (fun i => dfsFinalize i o) s)
    (ha : AnsweredBy Succeeds s.log) : Live N 1 8 s where
  no_abort i _ w hw := by
    rcases dfsFinalize_ends (h.runs i) with ⟨-, hab⟩ | ⟨x, hr, ⟨hx, -⟩ | ⟨-, hab⟩⟩
    · obtain ⟨c, r, hm, hrc, -⟩ := hab w hw
      have : r.rc = 0 := ha i c r (mem_proj.mp hm)
      omega
    · obtain ⟨r, c, u, d, x', p, f, -, hrecv⟩ := h.finalize_status
      have hx₀ : x ∈ sent 0 s.log := (h.received_prefix (fun _ _ _ hm => h.finalize_leave_bcast hm)
        i).subset (by simp [received, hr])
      obtain ⟨c, r, hm, rfl⟩ := h.finalize_sent_rc hx₀
      have : r.rc = 0 := ha 0 c r hm
      omega
    · obtain ⟨f, hm, hrc, -⟩ := hab w hw
      have : f.rc = 0 := ha i _ f (mem_proj.mp hm)
      omega
  sent_le i _ := by
    obtain ⟨r, c, u, d, x, p, f, ht⟩ := dfsFinalize_run (h.runs i)
    simpa [sent_finalizeTrace] using (ht.filterMap Ev.sent).length_le
  sent_done i _ u hu := by
    have hr := h.runs i
    rw [hu] at hr
    rw [sent, length_sent_eq_length_collsOf, dfsFinalize_collSeq i o _ _ hr]
    rfl
  sources i _ c k hw j hj := by
    have hr := h.runs i
    rw [hw] at hr
    rcases hr.wait_entered with ⟨-, hq⟩ | ⟨t, v, ht⟩
    · cases hq
    obtain ⟨r, c', u, d, x, p, f, hti⟩ := dfsFinalize_run (h.runs i)
    have hmem := hti.subset (ht ▸ List.mem_append_right _ (List.mem_singleton_self _))
    have hc : c = .bcast .world 0 := by
      simp only [finalizeTrace, List.mem_cons, List.mem_append, List.mem_singleton] at hmem
      split_ifs at hmem <;> simp at hmem <;> exact hmem.1
    subst hc
    exact (show j = 0 from hj) ▸ hN
  length_le i _ := by
    obtain ⟨r, c, u, d, x, p, f, ht⟩ := dfsFinalize_run (h.runs i)
    refine ht.length_le.trans ?_
    simp only [finalizeTrace]
    split_ifs <;> simp

/-- `DFS_Finalize` on `N` workers, every call succeeding: from every reachable state, a
schedule brings every rank back from `DFS_Finalize`, each having received status 0. -/
theorem dfsFinalize_completes (hN : 0 < N) (h : Reachable N (fun i => dfsFinalize i o) s)
    (ha : AnsweredBy Succeeds s.log) :
    ∃ s', Relation.ReflTransGen (Step N) s s' ∧ AnsweredBy Succeeds s'.log ∧
      ∀ i < N, s'.ctl i = .run (.done ()) ∧ received i s'.log = [0] := by
  obtain ⟨s', hs', ha', hdone⟩ :=
    h.finishes (fun i c => show ∃ r, Succeeds i c r from ⟨⟨0, 0⟩, rfl⟩)
      (fun _ h ha => h.finalize_live hN ha) ha
  have h' := h.steps hs'
  refine ⟨s', hs', ha', fun i hi => ?_⟩
  obtain ⟨⟨⟩, hu⟩ := hdone i hi
  have hbal := (h'.runs i).balance
  rw [hu] at hbal
  change (sent i s'.log).length + 0 = (received i s'.log).length + 0 at hbal
  have h1 := (h'.finalize_live hN ha').sent_done i hi () hu
  obtain ⟨x, hx⟩ : ∃ x, received i s'.log = [x] := List.length_eq_one.mp (by omega)
  have hx₀ : x ∈ sent 0 s'.log :=
    (h'.received_prefix (fun _ _ _ hm => h'.finalize_leave_bcast hm) i).subset (by simp [hx])
  obtain ⟨c, r, hm, rfl⟩ := h'.finalize_sent_rc hx₀
  exact ⟨hu, by rw [hx, ha' 0 c r hm]⟩

theorem dfsFinalize_completes_two_ranks :
    ∃ s', Relation.ReflTransGen (Step 2)
        ⟨fun i => .run (dfsFinalize i ⟨none, none, none, some "c", true⟩), []⟩ s' ∧
      ∀ i < 2, s'.ctl i = .run (.done ()) ∧ received i s'.log = [0] :=
  (dfsFinalize_completes (N := 2) (by decide) .init fun _ _ _ hm =>
    absurd hm (List.not_mem_nil _)).imp fun _ h => ⟨h.1, h.2.2⟩

end Finish

end IorDfs
