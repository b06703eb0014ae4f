import Bolgenos.Sched.Scheduler

/-!
# Passes of the scheduler

A pass resumes the tasks in the order of the ring. New tasks are linked in behind the
scheduler task, with which the pass begins, so the cursor has left their place before the
first of them can be created; tasks that finish stay in the ring until the end of the pass.
-/

namespace Bolgenos

open CircularIntrusiveList

namespace Kernel

structure HasTasks (k : Kernel) (s : ℕ) (xs : List ℕ) : Prop where
  scheduler : k.sched.schedulerTask = s
  ring : k.sched.tasks.IsRing s xs
  live : ∀ t, t ∈ k.live ↔ t ∈ s :: xs
  word : ∀ t ∈ k.live, t < 2 ^ 32
  exited : ∀ t ∈ k.live, k.exited t = true ↔ t ∈ k.sched.finishedTasks
  running : s ∉ k.sched.finishedTasks

variable {k k' : Kernel} {s t : ℕ} {xs : List ℕ}

theorem HasTasks.scheduler_live (h : k.HasTasks s xs) : s ∈ k.live := by
  rw [h.live]
  exact List.mem_cons_self

theorem HasTasks.mem_live (h : k.HasTasks s xs) (ht : t ∈ xs) : t ∈ k.live := by
  rw [h.live]
  exact List.mem_cons_of_mem _ ht

theorem HasTasks.ne_scheduler (h : k.HasTasks s xs) (ht : t ∈ xs) : t ≠ s := by
  intro heq
  rw [heq] at ht
  exact (List.nodup_cons.mp h.ring.nodup).1 ht

/-- The tasks stand at different non-null addresses, so the counter of the iterator does not
come back to zero. -/
theorem HasTasks.length_lt (h : k.HasTasks s xs) : xs.length + 1 < 2 ^ 32 := by
  have hsub : (s :: xs).toFinset ⊆ Finset.Ioo 0 (2 ^ 32) := by
    intro y hy
    rw [List.mem_toFinset] at hy
    rw [Finset.mem_Ioo]
    exact ⟨Nat.pos_of_ne_zero (h.ring.ne_null y hy), h.word y ((h.live y).mpr hy)⟩
  have hcard := Finset.card_le_card hsub
  rw [List.toFinset_card_of_nodup h.ring.nodup, Nat.card_Ioo, List.length_cons] at hcard
  omega

theorem access_live (h : t ∈ k.live) : k.access t = .ok () := if_pos h

theorem switchTo_live (hcur : k.sched.current ∈ k.live) (ht : t ∈ k.live) :
    k.switchTo t = .ok { k with sched := { k.sched with current := t } } := by
  simp only [switchTo, access_live hcur, access_live ht, bind, Except.bind]

theorem HasTasks.setCurrent (h : k.HasTasks s xs) (t : ℕ) (c : Control) :
    HasTasks { k with sched := { k.sched with current := t }, control := c } s xs :=
  ⟨h.scheduler, h.ring, h.live, h.word, h.exited, h.running⟩

theorem HasTasks.setControl (h : k.HasTasks s xs) (c : Control) :
    HasTasks { k with control := c } s xs :=
  ⟨h.scheduler, h.ring, h.live, h.word, h.exited, h.running⟩

theorem createTask_spec (h : k.HasTasks s xs) (ht : t ∉ k.live) (ht0 : t ≠ 0)
    (hword : t < 2 ^ 32) (hfin : t ∉ k.sched.finishedTasks) :
    ∃ k', k.createTask t = .ok k' ∧ k'.HasTasks s (t :: xs) ∧
      k'.sched.finishedTasks = k.sched.finishedTasks ∧ k'.sched.current = k.sched.current ∧
      k'.control = k.control := by
  have hmem : t ∉ s :: xs := by
    intro hmem
    exact ht ((h.live t).mpr hmem)
  obtain ⟨l, hl, hring, -⟩ := insert_ring h.ring hmem ht0
  rw [createTask, hl]
  refine ⟨_, rfl, ⟨h.scheduler, hring, ?_, ?_, ?_, h.running⟩, rfl, rfl, rfl⟩
  · intro y
    simp only [Finset.mem_insert, h.live, List.mem_cons]
    exact or_left_comm
  · intro y hy
    rcases Finset.mem_insert.mp hy with heq | hy
    · rw [heq]
      exact hword
    · exact h.word y hy
  · intro y hy
    rcases Finset.mem_insert.mp hy with heq | hy
    · simp [heq, hfin]
    · have hne : y ≠ t := by
        intro heq
        rw [heq] at hy
        exact ht hy
      simp only [Function.update_of_ne hne]
      exact h.exited y hy

theorem finish_spec (h : k.HasTasks s xs) (ht : t ∈ xs) :
    ∃ k', k.finish t = .ok k' ∧ k'.HasTasks s xs ∧
      k'.sched.finishedTasks = t :: k.sched.finishedTasks ∧
      k'.sched.current = k.sched.current ∧ k'.control = k.control := by
  rw [finish, access_live (h.mem_live ht)]
  refine ⟨_, rfl, ⟨h.scheduler, h.ring, h.live, h.word, ?_, ?_⟩, rfl, rfl, rfl⟩
  · intro y hy
    by_cases heq : y = t
    · simp [heq]
    · simp only [Function.update_of_ne heq, List.mem_cons, heq, false_or]
      exact h.exited y hy
  · simp only [List.mem_cons, not_or]
    exact ⟨(h.ne_scheduler ht).symm, h.running⟩

theorem deleteTask_spec (h : k.HasTasks s xs) (ht : t ∈ xs) :
    ∃ k', k.deleteTask t = .ok k' ∧ k'.HasTasks s (xs.filter (· ≠ t)) ∧
      k'.sched.finishedTasks = k.sched.finishedTasks ∧ k'.sched.current = k.sched.current := by
  have hnd := (List.nodup_cons.mp h.ring.nodup).2
  have hring := h.ring
  obtain ⟨as, bs, hxs⟩ := List.append_of_mem ht
  rw [hxs] at hring
  obtain ⟨r, l, hl, hring⟩ := remove_ring hring
  have hfilter : xs.filter (· ≠ t) = as ++ bs := by
    have ht' : t ∉ as ++ bs := by
      rw [hxs, List.nodup_middle] at hnd
      exact (List.nodup_cons.mp hnd).1
    rw [hxs, List.filter_append, List.filter_cons_of_neg (by simp), ← List.filter_append,
      List.filter_eq_self]
    intro y hy
    rw [decide_eq_true_eq]
    intro heq
    rw [heq] at hy
    exact ht' hy
  rw [← hfilter] at hring
  rw [deleteTask, access_live (h.mem_live ht), hl]
  refine ⟨_, rfl, ⟨h.scheduler, hring, ?_, ?_, ?_, h.running⟩, rfl, rfl⟩
  · intro y
    have hst := h.ne_scheduler ht
    simp only [Finset.mem_erase, h.live, List.mem_cons, List.mem_filter, decide_eq_true_eq]
    grind
  · intro y hy
    exact h.word y (Finset.mem_of_mem_erase hy)
  · intro y hy
    exact h.exited y (Finset.mem_of_mem_erase hy)

/-- The loop over the tasks, with `M` the tasks at the start of the pass and `es` what has
happened in the pass. -/
structure Walking (k : Kernel) (s : ℕ) (M : List ℕ) (es : List Event) : Prop where
  tasks : k.HasTasks s ((created es).reverse ++ M)
  queue : k.sched.finishedTasks = (finished es).reverse
  finished_sub : finished es ⊆ resumed s es
  finished_nodup : (finished es).Nodup
  undeleted : deleted es = []

inductive InPass (s : ℕ) (M : List ℕ) : List Event → Kernel → Prop
  | atStart {k : Kernel} : k.Walking s M [] → k.control = .iterating ⟨s, 0⟩ s →
      k.sched.current = s → InPass s M [] k
  | iterating {k : Kernel} {es : List Event} (todo : List ℕ) : k.Walking s M es →
      k.control = .iterating ⟨(todo ++ [s]).headD s, (resumed s es).length + 1⟩ s →
      k.sched.current = s → M = resumed s es ++ todo → InPass s M es k
  | switched {k : Kernel} {es : List Event} {R : List ℕ} {t : ℕ} (todo : List ℕ) :
      k.Walking s M es → k.control = .switched ⟨t, R.length + 1⟩ s → k.sched.current = t →
      resumed s es = R ++ [t] → M = R ++ t :: todo → InPass s M es k
  | deleting {k : Kernel} {es : List Event} {D rest : List ℕ} :
      ((created es).reverse ++ M).Nodup →
      k.HasTasks s (((created es).reverse ++ M).filter (· ∉ D)) →
      k.sched.finishedTasks = (finished es).reverse → finished es ⊆ M →
      (finished es).Nodup → deleted es = [] → k.control = .deleting rest →
      k.sched.current = s → resumed s es = M → (finished es).reverse = D ++ rest →
      InPass s M (es ++ .listEnd :: D.map .delete) k

structure Idle (s : ℕ) (M : List ℕ) (k : Kernel) : Prop where
  control : k.control = .idle
  current : k.sched.current = s
  tasks : k.HasTasks s M
  queue : k.sched.finishedTasks = []

/-- What a completed pass did to the tasks `M`: each was resumed once and in order, none of
the tasks created meanwhile was; those that finished were deleted, each once and after the
last switch, and `M'` are the tasks that are left. -/
structure CompletedPass (s : ℕ) (M : List ℕ) (es : List Event) (M' : List ℕ) : Prop where
  resumed_eq : resumed s es = M
  nodup : M.Nodup
  created_new : ∀ t ∈ created es, t ∉ M
  finished_sub : finished es ⊆ M
  finished_nodup : (finished es).Nodup
  deleted_last : ∃ walk, es = walk ++ .listEnd :: (finished es).reverse.map .delete ∧
    deleted walk = []
  remaining : M' = ((created es).reverse ++ M).filter (· ∉ finished es)

structure SafeEvent (k : Kernel) (s : ℕ) (e : Event) : Prop where
  switchTo : ∀ t, e = .switchTo t → t ∈ k.live ∧ k.exited t = false
  delete : ∀ t, e = .delete t → k.sched.current = s ∧ t ∈ k.live ∧ k.exited t = true

variable {M : List ℕ} {es : List Event} {act : Action}

def Advances (k : Kernel) (s : ℕ) (M : List ℕ) (es : List Event) (act : Action) : Prop :=
  ∃ e k', k.next act = .ok (e, k') ∧ k.SafeEvent s e ∧
    ((e ≠ .passEnd ∧ InPass s M (es ++ [e]) k') ∨
      (e = .passEnd ∧ ∃ M', Idle s M' k' ∧ CompletedPass s M es M'))

theorem HasTasks.not_exited (h : k.HasTasks s xs) (ht : t ∈ k.live)
    (hq : t ∉ k.sched.finishedTasks) : k.exited t = false := by
  rw [← Bool.not_eq_true, h.exited t ht]
  exact hq

theorem HasTasks.scheduler_not_exited (h : k.HasTasks s xs) : k.exited s = false :=
  h.not_exited h.scheduler_live h.running

theorem idle_next (h : Idle s M k) (act : Action) :
    ∃ k', k.next act = .ok (.passBegin, k') ∧ InPass s M [] k' := by
  rw [next, h.control]
  refine ⟨_, rfl, .atStart ⟨h.tasks.setControl _, ?_, by simp [finished], by simp [finished],
    rfl⟩ ?_ h.current⟩
  · exact h.queue
  · simp [begin_, h.tasks.ring.some_eq]

theorem HasTasks.ne_null (h : k.HasTasks s xs) (ht : t ∈ k.live) : t ≠ 0 :=
  h.ring.ne_null t ((h.live t).mp ht)

theorem advance_live (h : k.HasTasks s xs) (ht : t ∈ k.live) {n : ℕ} (hn : n + 1 < 2 ^ 32) :
    k.advance ⟨t, n⟩ = .ok ⟨k.sched.tasks.next t, n + 1⟩ := by
  rw [advance, access_live ht]
  simp only [CircularIntrusiveList.advance, if_neg (h.ne_null ht), wrap_of_lt hn, bind,
    Except.bind]

theorem created_append (es fs : List Event) : created (es ++ fs) = created es ++ created fs :=
  List.filterMap_append

theorem finished_append (es fs : List Event) :
    finished (es ++ fs) = finished es ++ finished fs :=
  List.filterMap_append

theorem deleted_append (es fs : List Event) : deleted (es ++ fs) = deleted es ++ deleted fs :=
  List.filterMap_append

theorem resumed_append (s : ℕ) (es fs : List Event) :
    resumed s (es ++ fs) = resumed s es ++ resumed s fs :=
  List.filterMap_append

theorem Walking.quiet (h : k.Walking s M es) {e : Event} (h1 : created [e] = [])
    (h2 : finished [e] = []) (h3 : deleted [e] = []) (cur : ℕ) (c : Control) :
    Walking { k with sched := { k.sched with current := cur }, control := c } s M
      (es ++ [e]) := by
  constructor
  · rw [created_append, h1, List.append_nil]
    exact h.tasks.setCurrent cur c
  · rw [finished_append, h2, List.append_nil]
    exact h.queue
  · rw [finished_append, h2, List.append_nil, resumed_append]
    exact List.Subset.trans h.finished_sub (List.subset_append_left _ _)
  · rw [finished_append, h2, List.append_nil]
    exact h.finished_nodup
  · rw [deleted_append, h3, List.append_nil]
    exact h.undeleted

theorem Walking.mem_ring (ht : t ∈ M) : t ∈ (created es).reverse ++ M :=
  List.mem_append_right _ ht

theorem Walking.nodup (h : k.Walking s M es) : M.Nodup :=
  (List.nodup_append.mp (List.nodup_cons.mp h.tasks.ring.nodup).2).2.1

theorem atStart_advances (h : k.Walking s M [])
    (hc : k.control = .iterating ⟨s, 0⟩ s) (hcur : k.sched.current = s) :
    k.Advances s M [] act := by
  have hs := h.tasks.scheduler_live
  have hnext : k.sched.tasks.next s = (M ++ [s]).headD s :=
    LinkedRing.linked_next h.tasks.ring.linked
  have hadv := advance_live h.tasks hs (n := 0) (by norm_num)
  rw [hnext] at hadv
  have hderef : deref ⟨s, 0⟩ = .ok s := if_neg (h.tasks.ne_null hs)
  have hshould : k.shouldSchedule s = .ok false := if_pos h.tasks.scheduler.symm
  have hstep : k.next act = .ok (.skip s,
      { k with control := .iterating ⟨(M ++ [s]).headD s, 1⟩ s }) := by
    simp [next, hc, atEnd, access_live hs, hderef, hshould, bind, Except.bind, hadv]
  refine ⟨_, _, hstep, ⟨by simp, by simp⟩, .inl ⟨by simp, ?_⟩⟩
  exact .iterating M (h.quiet rfl rfl rfl k.sched.current _) rfl hcur rfl

theorem iterating_advances {todo : List ℕ} (h : k.Walking s M es)
    (hc : k.control = .iterating ⟨t, (resumed s es).length + 1⟩ s)
    (hcur : k.sched.current = s) (hM : M = resumed s es ++ t :: todo) :
    k.Advances s M es act := by
  have htring : t ∈ (created es).reverse ++ M := Walking.mem_ring (by simp [hM])
  have ht := h.tasks.mem_live htring
  have hts := h.tasks.ne_scheduler htring
  have hfin : t ∉ finished es := by
    intro hmem
    have hnd := h.nodup
    rw [hM] at hnd
    exact (List.nodup_append.mp hnd).2.2 t (h.finished_sub hmem) t (by simp) rfl
  have hexit : k.exited t = false := by
    apply h.tasks.not_exited ht
    rw [h.queue, List.mem_reverse]
    exact hfin
  have hderef : deref ⟨t, (resumed s es).length + 1⟩ = .ok t := if_neg (h.tasks.ne_null ht)
  have hshould : k.shouldSchedule t = .ok true := by
    rw [shouldSchedule, h.tasks.scheduler, if_neg hts, access_live ht, hexit]
    rfl
  have hswitch := switchTo_live (by rw [hcur]; exact h.tasks.scheduler_live) ht
  have hstep : k.next act = .ok (.switchTo t, { k with
      sched := { k.sched with current := t }
      control := .switched ⟨t, (resumed s es).length + 1⟩ s }) := by
    simp [next, hc, atEnd, hts, access_live ht, hderef, hshould, hswitch, bind, Except.bind]
  refine ⟨_, _, hstep, ⟨by simp [ht, hexit], by simp⟩, .inl ⟨by simp, ?_⟩⟩
  refine .switched todo (h.quiet rfl rfl rfl t _) rfl rfl ?_ hM
  simp [resumed, hts]

theorem listEnd_advances (h : k.Walking s M es)
    (hc : k.control = .iterating ⟨s, (resumed s es).length + 1⟩ s)
    (hcur : k.sched.current = s) (hM : M = resumed s es) : k.Advances s M es act := by
  have hstep : k.next act = .ok (.listEnd, { k with
      control := .deleting k.sched.finishedTasks }) := by
    simp [next, hc, atEnd]
  refine ⟨_, _, hstep, ⟨by simp, by simp⟩, .inl ⟨by simp, ?_⟩⟩
  have hsub := h.finished_sub
  rw [← hM] at hsub
  refine .deleting (D := []) (List.nodup_cons.mp h.tasks.ring.nodup).2 ?_ h.queue hsub
    h.finished_nodup h.undeleted rfl hcur hM.symm h.queue.symm
  simpa using h.tasks.setControl _

section Switched

variable {R todo : List ℕ} (h : k.Walking s M es)
  (hc : k.control = .switched ⟨t, R.length + 1⟩ s) (hcur : k.sched.current = t)
  (hR : resumed s es = R ++ [t]) (hM : M = R ++ t :: todo)

include h hcur hR hM

/-- The tasks created in the pass stand before the cursor, which goes on to the next task
of `M`. -/
theorem resumeScheduler_spec :
    k.resumeScheduler ⟨t, R.length + 1⟩ s = .ok (.switchTo s, { k with
      sched := { k.sched with current := s }
      control := .iterating ⟨(todo ++ [s]).headD s, R.length + 2⟩ s }) := by
  have htl : t ∈ k.live := h.tasks.mem_live (Walking.mem_ring (by simp [hM]))
  have hshift : R.length + 1 + 1 < 2 ^ 32 := by
    have hlen := h.tasks.length_lt
    rw [hM] at hlen
    simp only [List.length_append, List.length_cons] at hlen
    omega
  have hnext : k.sched.tasks.next t = (todo ++ [s]).headD s := by
    have hring := h.tasks.ring
    rw [hM, ← List.append_assoc] at hring
    rw [next_of_linked hring.linked]
    cases todo <;> rfl
  have hs := h.tasks.scheduler
  subst hs
  have hyield : k.yield = _ := switchTo_live (hcur ▸ htl) h.tasks.scheduler_live
  have hadv := advance_live (h.tasks.setCurrent k.sched.schedulerTask k.control) htl hshift
  rw [hnext] at hadv
  rw [resumeScheduler, hyield]
  simp only [bind, Except.bind, hadv]

theorem resume_advances {e : Event} {k' : Kernel} (hstep : k.next act = .ok (e, k'))
    (hres : k.resumeScheduler ⟨t, R.length + 1⟩ s = .ok (e, k')) : k.Advances s M es act := by
  rw [resumeScheduler_spec h hcur hR hM] at hres
  cases hres
  refine ⟨_, _, hstep, ⟨?_, by simp⟩, .inl ⟨by simp, ?_⟩⟩
  · intro y hy
    cases hy
    exact ⟨h.tasks.scheduler_live, h.tasks.scheduler_not_exited⟩
  · have hresumed : resumed s (es ++ [.switchTo s]) = R ++ [t] := by
      rw [resumed_append, hR]
      simp [resumed]
    refine .iterating todo (h.quiet rfl rfl rfl s _) ?_ rfl ?_
    · rw [hresumed, List.length_append]
      rfl
    · rw [hresumed, hM, List.append_assoc, List.singleton_append]

theorem create_advances {v : ℕ} (hstep : k.next act = (do
      let k ← k.createTask v
      .ok (.create v, k))) (hc : k.control = .switched ⟨t, R.length + 1⟩ s)
    (hv : k.Admissible (.createTask v)) : k.Advances s M es act := by
  obtain ⟨hlive, hv0, hword⟩ := hv
  have hq : v ∉ k.sched.finishedTasks := by
    intro hmem
    rw [h.queue, List.mem_reverse] at hmem
    have hv := h.finished_sub hmem
    rw [hR] at hv
    refine hlive (h.tasks.mem_live (Walking.mem_ring ?_))
    rw [hM]
    simp only [List.mem_append, List.mem_cons, List.not_mem_nil, or_false] at hv ⊢
    tauto
  obtain ⟨k', hk', htasks, hqueue, hcur', hc'⟩ := createTask_spec h.tasks hlive hv0 hword hq
  rw [hk'] at hstep
  refine ⟨_, _, hstep, ⟨by simp, by simp⟩, .inl ⟨by simp, ?_⟩⟩
  refine .switched todo ⟨?_, ?_, ?_, ?_, ?_⟩ (hc'.trans hc) (hcur'.trans hcur) ?_ hM
  · rw [created_append, List.reverse_append]
    exact htasks
  · rw [hqueue, h.queue, finished_append]
    simp [finished]
  · rw [finished_append, resumed_append]
    simpa [finished, resumed] using h.finished_sub
  · rw [finished_append]
    simpa [finished] using h.finished_nodup
  · rw [deleted_append, h.undeleted]
    rfl
  · rw [resumed_append, hR]
    simp [resumed]

theorem finish_advances (hstep : k.next act = (do
      let k ← k.finish k.sched.current
      .ok (.finish k.sched.current, k))) (hc : k.control = .switched ⟨t, R.length + 1⟩ s)
    (hexit : k.exited t = false) : k.Advances s M es act := by
  have htring : t ∈ (created es).reverse ++ M := Walking.mem_ring (by simp [hM])
  have hnew : t ∉ finished es := by
    intro hmem
    rw [← List.mem_reverse, ← h.queue, ← h.tasks.exited t (h.tasks.mem_live htring), hexit] at hmem
    cases hmem
  obtain ⟨k', hk', htasks, hqueue, hcur', hc'⟩ := finish_spec h.tasks htring
  rw [hcur, hk'] at hstep
  have hstep : k.next act = .ok (.finish t, k') := by
    rw [hstep]
    simp only [bind, Except.bind, hcur', hcur]
  refine ⟨_, _, hstep, ⟨by simp, by simp⟩, .inl ⟨by simp, ?_⟩⟩
  have hresumed : resumed s (es ++ [.finish t]) = R ++ [t] := by
    rw [resumed_append, hR]
    simp [resumed]
  have hfinished : finished (es ++ [.finish t]) = finished es ++ [t] := by
    rw [finished_append]
    rfl
  refine .switched todo ⟨?_, ?_, ?_, ?_, ?_⟩ (hc'.trans hc) (hcur'.trans hcur) hresumed hM
  · rw [created_append]
    simpa [created] using htasks
  · rw [hqueue, h.queue, hfinished, List.reverse_append]
    rfl
  · rw [hfinished, hresumed]
    refine List.append_subset.mpr ⟨?_, by simp⟩
    rw [← hR]
    exact h.finished_sub
  · rw [hfinished, List.nodup_append]
    refine ⟨h.finished_nodup, by simp, ?_⟩
    intro y hy z hz heq
    rw [List.mem_singleton.mp hz] at heq
    rw [heq] at hy
    exact hnew hy
  · rw [deleted_append, h.undeleted]
    rfl

theorem switched_advances (hc : k.control = .switched ⟨t, R.length + 1⟩ s)
    (hact : k.Admissible act) : k.Advances s M es act := by
  have hres := resumeScheduler_spec h hcur hR hM
  cases hexit : k.exited t with
  | true =>
    refine resume_advances h hcur hR hM ?_ hres
    simp [next, hc, hcur, hexit, hres]
  | false =>
    cases act with
    | yield =>
      refine resume_advances h hcur hR hM ?_ hres
      simp [next, hc, hcur, hexit, hres]
    | createTask v =>
      refine create_advances h hcur hR hM ?_ hc hact
      simp [next, hc, hcur, hexit]
    | ret =>
      refine finish_advances h hcur hR hM ?_ hc hexit
      simp [next, hc, hcur, hexit]

end Switched

theorem deletions_quiet (s : ℕ) (D : List ℕ) :
    created (.listEnd :: D.map .delete) = [] ∧ finished (.listEnd :: D.map .delete) = [] ∧
      resumed s (.listEnd :: D.map .delete) = [] := by
  induction D with
  | nil => exact ⟨rfl, rfl, rfl⟩
  | cons y D ih => exact ih

section Deleting

variable {D rest : List ℕ} (hall : ((created es).reverse ++ M).Nodup)
  (h : k.HasTasks s (((created es).reverse ++ M).filter (· ∉ D)))
  (hq : k.sched.finishedTasks = (finished es).reverse) (hsub : finished es ⊆ M)
  (hnd : (finished es).Nodup) (hdel : deleted es = []) (hcur : k.sched.current = s)
  (hres : resumed s es = M)

include hall h hq hsub hnd hdel hcur hres

theorem deleting_advances (hc : k.control = .deleting (t :: rest))
    (hD : (finished es).reverse = D ++ t :: rest) :
    k.Advances s M (es ++ .listEnd :: D.map .delete) act := by
  have htq : t ∈ k.sched.finishedTasks := by simp [hq, hD]
  have htM : t ∈ M := by
    apply hsub
    rw [← List.mem_reverse, hD]
    simp
  have htD : t ∉ D := by
    have hnd := List.nodup_reverse.mpr hnd
    rw [hD, List.nodup_middle] at hnd
    intro hmem
    exact (List.nodup_cons.mp hnd).1 (List.mem_append_left _ hmem)
  have ht : t ∈ ((created es).reverse ++ M).filter (· ∉ D) := by
    rw [List.mem_filter]
    exact ⟨List.mem_append_right _ htM, by simpa using htD⟩
  have htl := h.mem_live ht
  obtain ⟨k', hk', htasks, hqueue, hcur'⟩ := deleteTask_spec h ht
  have hstep : k.next act = .ok (.delete t, { k' with control := .deleting rest }) := by
    simp only [next, hc, hk', bind, Except.bind]
  refine ⟨_, _, hstep, ⟨by simp, ?_⟩, .inl ⟨by simp, ?_⟩⟩
  · intro y hy
    cases hy
    exact ⟨hcur, htl, (h.exited t htl).mpr htq⟩
  · have hes : es ++ .listEnd :: D.map .delete ++ [.delete t] =
        es ++ .listEnd :: (D ++ [t]).map .delete := by
      simp
    rw [hes]
    refine .deleting hall ?_ (hqueue.trans hq) hsub hnd hdel rfl (hcur'.trans hcur) hres
      (by simp [hD])
    rw [List.filter_filter] at htasks
    convert htasks.setControl _ using 2
    funext y
    simp [and_comm]

theorem passEnd_advances (hc : k.control = .deleting []) (hD : (finished es).reverse = D) :
    k.Advances s M (es ++ .listEnd :: D.map .delete) act := by
  obtain ⟨hq1, hq2, hq3⟩ := deletions_quiet s D
  have hstep : k.next act = .ok (.passEnd, { k with
      sched := { k.sched with finishedTasks := [] }, control := .idle }) := by
    simp only [next, hc]
  have hleft : ∀ y ∈ k.live, y ∉ k.sched.finishedTasks := by
    intro y hy
    rcases List.mem_cons.mp ((h.live y).mp hy) with heq | hy
    · rw [heq]
      exact h.running
    · rw [hq, hD]
      simpa using (List.mem_filter.mp hy).2
  refine ⟨_, _, hstep, ⟨by simp, by simp⟩, .inr ⟨rfl, _, ⟨rfl, hcur, ⟨h.scheduler, h.ring,
    h.live, h.word, ?_, by simp⟩, rfl⟩, ?_⟩⟩
  · intro y hy
    simp [h.not_exited hy (hleft y hy)]
  · constructor
    · rw [resumed_append, hq3, List.append_nil, hres]
    · exact (List.nodup_append.mp hall).2.1
    · intro y hy hyM
      rw [created_append, hq1, List.append_nil] at hy
      exact (List.nodup_append.mp hall).2.2 y (List.mem_reverse.mpr hy) y hyM rfl
    · rw [finished_append, hq2, List.append_nil]
      exact hsub
    · rw [finished_append, hq2, List.append_nil]
      exact hnd
    · refine ⟨es, ?_, hdel⟩
      rw [finished_append, hq2, List.append_nil, hD]
    · rw [created_append, finished_append, hq1, hq2, List.append_nil, List.append_nil]
      rw [← hD]
      simp

end Deleting

theorem InPass.advances (h : InPass s M es k) (hact : k.Admissible act) :
    k.Advances s M es act := by
  cases h with
  | atStart hw hc hcur => exact atStart_advances hw hc hcur
  | iterating todo hw hc hcur hM =>
    cases todo with
    | nil =>
      rw [List.append_nil] at hM
      exact listEnd_advances hw hc hcur hM
    | cons t todo => exact iterating_advances hw hc hcur hM
  | switched todo hw hc hcur hR hM => exact switched_advances hw hcur hR hM hc hact
  | @deleting _ _ D rest hall ht hq hsub hnd hdel hc hcur hres hD =>
    cases rest with
    | nil =>
      rw [List.append_nil] at hD
      exact passEnd_advances hall ht hq hsub hnd hdel hcur hres hc hD
    | cons t rest => exact deleting_advances hall ht hq hsub hnd hdel hcur hres hc hD

inductive Reached (s : ℕ) (k : Kernel) : Prop
  | start (M : List ℕ) : k.control = .start → k.sched.current = s → k.HasTasks s M →
      k.sched.finishedTasks = [] → Reached s k
  | idle (M : List ℕ) : Idle s M k → Reached s k
  | pass (M : List ℕ) (es : List Event) : InPass s M es k → Reached s k

theorem Reached.step (h : Reached s k) (hact : k.Admissible act) :
    ∃ e k', k.next act = .ok (e, k') ∧ k.SafeEvent s e ∧ Reached s k' := by
  cases h with
  | start M hc hcur ht hq =>
    have hs := ht.scheduler
    subst hs
    have hswitch := switchTo_live (hcur ▸ ht.scheduler_live) ht.scheduler_live
    have hstep : k.next act = .ok (.switchTo k.sched.schedulerTask, { k with
        sched := { k.sched with current := k.sched.schedulerTask }, control := .idle }) := by
      simp only [next, hc, hswitch, bind, Except.bind]
    refine ⟨_, _, hstep, ⟨?_, by simp⟩, .idle M ⟨rfl, rfl, ht.setCurrent _ _, hq⟩⟩
    intro y hy
    cases hy
    exact ⟨ht.scheduler_live, ht.scheduler_not_exited⟩
  | idle M hi =>
    obtain ⟨k', hstep, hpass⟩ := idle_next hi act
    exact ⟨_, _, hstep, ⟨by simp, by simp⟩, .pass M [] hpass⟩
  | pass M es hp =>
    obtain ⟨e, k', hstep, hsafe, ⟨-, hpass⟩ | ⟨-, M', hidle, -⟩⟩ := hp.advances hact
    · exact ⟨e, k', hstep, hsafe, .pass M _ hpass⟩
    · exact ⟨e, k', hstep, hsafe, .idle M' hidle⟩

theorem construct_spec {c m : ℕ} (hs : s ≠ 0 ∧ s < 2 ^ 32) (hm : m ≠ 0 ∧ m < 2 ^ 32)
    (hsm : m ≠ s) (hk : construct c s m = .ok k) :
    k.control = .start ∧ k.sched.current = s ∧ k.HasTasks s [m] ∧
      k.sched.finishedTasks = [] := by
  obtain ⟨l, hl, hring, -⟩ := insert_empty (l := {}) rfl hs.1
  -- the state in which the main task is created
  have hfirst : HasTasks { sched := { tasks := l, schedulerTask := s }, live := {s} } s [] := by
    refine ⟨rfl, hring, by simp, ?_, by simp, by simp⟩
    intro y hy
    rw [Finset.mem_singleton.mp hy]
    exact hs.2
  obtain ⟨k₁, hk₁, htasks, hqueue, -, hctl⟩ := createTask_spec hfirst (by simpa using hsm)
    hm.1 hm.2 (by simp)
  have hcreate : createTask {} s = .ok { sched := { tasks := l }, live := {s} } := by
    simp [createTask, hl, bind, Except.bind]
  rw [construct, hcreate] at hk
  split_ifs at hk
  simp only [bind, Except.bind] at hk
  rw [hk₁] at hk
  cases hk
  exact ⟨hctl, htasks.scheduler, htasks.setCurrent _ _, hqueue⟩

theorem Run.reached (h : Run k es k') (hk : Reached s k) : Reached s k' := by
  induction h with
  | nil => exact hk
  | step _ hact hstep ih =>
    obtain ⟨e, k'', hstep', -, hreached⟩ := ih.step hact
    rw [hstep] at hstep'
    cases hstep'
    exact hreached

theorem Advances.of_next {e : Event} (h : k.Advances s M es act)
    (hnext : k.next act = .ok (e, k')) :
    (e ≠ .passEnd ∧ InPass s M (es ++ [e]) k') ∨
      (e = .passEnd ∧ ∃ M', Idle s M' k' ∧ CompletedPass s M es M') := by
  obtain ⟨e', k'', hnext', -, hcase⟩ := h
  rw [hnext] at hnext'
  cases hnext'
  exact hcase

theorem Run.inPass (h : Run k es k') (hk : Idle s M k) (hes : .passEnd ∉ es) :
    (es = [] ∧ k' = k) ∨ ∃ fs, es = .passBegin :: fs ∧ InPass s M fs k' := by
  induction h with
  | nil => exact .inl ⟨rfl, rfl⟩
  | @step k₁ k₂ es act e hrun hact hstep ih =>
    rw [List.mem_append, not_or] at hes
    rcases ih hes.1 with ⟨hnil, heq⟩ | ⟨fs, hfs, hpass⟩
    · subst hnil heq
      obtain ⟨k'', hstep', hpass⟩ := idle_next hk act
      rw [hstep] at hstep'
      cases hstep'
      exact .inr ⟨[], rfl, hpass⟩
    · rcases (hpass.advances hact).of_next hstep with ⟨-, hpass'⟩ | ⟨hend, -⟩
      · exact .inr ⟨fs ++ [e], by simp [hfs], hpass'⟩
      · simp [hend] at hes

theorem Run.completedPass (h : Run k (.passBegin :: es ++ [.passEnd]) k') (hk : Idle s M k)
    (hes : .passEnd ∉ es) : ∃ M', Idle s M' k' ∧ CompletedPass s M es M' := by
  generalize hall : (Event.passBegin :: es ++ [.passEnd]) = all at h
  cases h with
  | nil => simp at hall
  | @step k₁ _ fs act e hrun hact hstep =>
    obtain ⟨hfs, he⟩ := List.append_inj' hall rfl
    cases he
    subst hfs
    rcases hrun.inPass hk (by simpa using hes) with ⟨hnil, -⟩ | ⟨gs, hgs, hpass⟩
    · cases hnil
    · cases hgs
      rcases (hpass.advances hact).of_next hstep with ⟨hend, -⟩ | ⟨-, M', hidle, hcomp⟩
      · exact absurd rfl hend
      · exact ⟨M', hidle, hcomp⟩

theorem Reached.idle_of_control (h : Reached s k) (hc : k.control = .idle) :
    ∃ M, Idle s M k := by
  cases h with
  | start M hstart => simp [hc] at hstart
  | idle M hi => exact ⟨M, hi⟩
  | pass M es hp => cases hp <;> simp_all

/-- From the construction of the scheduler on, whatever the tasks do, no switch goes to a
task that has finished or was deleted and no access fails. A completed pass resumes the
tasks that were in the ring when it began, and at its end deletes those that finished. -/
theorem run_schedule {c m : ℕ} {k₀ : Kernel} (hs : s ≠ 0 ∧ s < 2 ^ 32)
    (hm : m ≠ 0 ∧ m < 2 ^ 32) (hsm : m ≠ s) (h0 : construct c s m = .ok k₀)
    (hrun : Run k₀ es k) :
    (∀ act, k.Admissible act → ∃ e k', k.next act = .ok (e, k') ∧ k.SafeEvent s e) ∧
    ∀ fs k', k.control = .idle → .passEnd ∉ fs →
      Run k (.passBegin :: fs ++ [.passEnd]) k' →
      ∃ M M', k.sched.tasks.IsRing s M ∧ k'.sched.tasks.IsRing s M' ∧
        CompletedPass s M fs M' := by
  obtain ⟨hctl, hcur, htasks, hqueue⟩ := construct_spec hs hm hsm h0
  have hreached := hrun.reached (.start [m] hctl hcur htasks hqueue)
  refine ⟨?_, ?_⟩
  · intro act hact
    obtain ⟨e, k', hstep, hsafe, -⟩ := hreached.step hact
    exact ⟨e, k', hstep, hsafe⟩
  · intro fs k' hidle hfs hpass
    obtain ⟨M, hM⟩ := hreached.idle_of_control hidle
    obtain ⟨M', hM', hcomp⟩ := hpass.completedPass hM hfs
    exact ⟨M, M', hM.tasks.ring, hM'.tasks.ring, hcomp⟩

theorem run_schedule_one_pass : ∃ k₀ k M M', construct 1 4096 8192 = .ok k₀ ∧
    Run k₀ [.switchTo 4096] k ∧ k.sched.tasks.IsRing 4096 M ∧
    CompletedPass 4096 M [.skip 4096, .switchTo 8192, .create 12288, .finish 8192,
      .switchTo 4096, .listEnd, .delete 8192] M' := by
  have hyield : ∀ k : Kernel, k.Admissible .yield := fun _ => trivial
  have hret : ∀ k : Kernel, k.Admissible .ret := fun _ => trivial
  obtain ⟨M, M', hring, -, hpass⟩ := (run_schedule (c := 1) (s := 4096) (m := 8192)
    (by decide) (by decide) (by decide) rfl (.step (.nil _) (hyield _) rfl)).2
    [.skip 4096, .switchTo 8192, .create 12288, .finish 8192, .switchTo 4096, .listEnd,
      .delete 8192] _ rfl (by decide)
    (.step (.step (.step (.step (.step (.step (.step (.step (.step (.nil _)
      (hyield _) rfl) (hyield _) rfl) (hyield _) rfl)
      (show Admissible _ (.createTask 12288) by decide) rfl) (hret _) rfl) (hyield _) rfl)
      (hyield _) rfl) (hyield _) rfl) (hyield _) rfl)
  exact ⟨_, _, M, M', rfl, .step (.nil _) (hyield _) rfl, hring, hpass⟩

end Kernel

end Bolgenos
