import Nachos.Userprog.Handshake
import Nachos.Userprog.Kernel

/-!
# What a call of `ExecUpdate` or `JoinUpdate` leaves in the log

While a thread is in one of the two functions the others go on, and their events come between its
own. `Traced` lists the thread's own events at each point of the call, so the result it returns with
can be compared with what it did.
-/

namespace Nachos

/-- The events of thread `t` in the two functions. -/
def Event.of (t : ℕ) : Event → Bool
  | .created u _ _ | .execReturned u _ | .joinRead u _ _ | .joinReturned u _ _ => decide (u = t)
  | _ => false

namespace Procs

/-- The events of a call by thread `t` up to a point of it. -/
inductive Traced (t : ℕ) : Pt → List Event → Prop
  | execP (name : Option Name) : Traced t (.execP name) []
  | execBody (name : Option Name) : Traced t (.execBody name) []
  | execMultexP (a slot : ℕ) : Traced t (.execMultexP a slot) [.created t a slot]
  | execFork (a slot : ℕ) : Traced t (.execFork a slot) [.created t a slot]
  | execUnlock (a slot : ℕ) : Traced t (.execUnlock a slot) [.created t a slot]
  | execDone (a slot : ℕ) : Traced t (.execDone slot) [.created t a slot]
  | execFailed : Traced t .user [.execReturned t (-1)]
  | executed (a slot : ℕ) : Traced t .user [.created t a slot, .execReturned t slot]
  | joinIncP (id : ℤ) (b : ℕ) : Traced t (.joinIncP id b) []
  | joinInc (id : ℤ) (b : ℕ) : Traced t (.joinInc id b) []
  | joinP (id : ℤ) : Traced t (.joinP id) []
  | joinWait (id : ℤ) (a : ℕ) : Traced t (.joinWait id a) []
  | joinRead (id : ℤ) : Traced t (.joinRead id) []
  | joinDone (id : ℤ) : Traced t (.joinDone id 0) [.joinRead t id 0]
  | joinFailed (id : ℤ) : Traced t .user [.joinReturned t id (-1)]
  | joined (id : ℤ) : Traced t .user [.joinRead t id 0, .joinReturned t id 0]
  /-- `JoinUpdate` used a null pointer. -/
  | joinFault : Traced t .user []

section Step

variable {s s' : Procs} {l : Label} {t : ℕ}

/-- All exit codes are 0 as long as nobody exits with another one. -/
theorem Act.exitcodes (h : s.Act l s') (hl : l.ExitsNormally)
    (hz : ∀ a, (s.heap a).exitcode = 0) (a : ℕ) : (s'.heap a).exitcode = 0 := by
  cases h with
  | @exitFault t ec hp hb | @exit t ec b hp hb =>
    have hec : ec = 0 := hl
    by_cases hat : a = t
    · subst hat; simp [modify, hec]
    · simp [modify, hat, hz]
  | @create t nm slot name hp hlt hcl =>
    by_cases han : a = s.next
    · subst han; simp [newPCB]
    · simp [newPCB, han, hz]
  | fork hp | joinInc hp | exitDec hp | remove hp =>
    simp only [execFork, goto_heap, V_heap]
    refine (modify_exitcode _ ?_).trans (hz a)
    exact fun _ => rfl
  | _ => simp [joinReturn, execReturn, hz]

/-- A step of another thread leaves no event of this one. -/
theorem Act.filter_others (h : s.Act l s') (hl : l.thread ≠ t) :
    ∃ es, s'.log = s.log ++ es ∧ es.filter (Event.of t) = [] := by
  obtain ⟨es, hlog, hes⟩ := h.events
  refine ⟨es, hlog, List.filter_eq_nil_iff.mpr fun e he hof => ?_⟩
  have hem := hes e he
  cases e with
  | created u a slot | execReturned u pid | joinRead u id ec =>
    simp only [Event.of, decide_eq_true_eq] at hof
    subst hof
    simp only [Emits] at hem
    omega
  | joinReturned u id ec =>
    simp only [Event.of, decide_eq_true_eq] at hof
    subst hof
    rcases hem with rfl | ⟨hu, _⟩
    · exact hl rfl
    · exact hl hu.symm
  | _ => simp [Event.of] at hof

theorem Traced.take {p next : Pt} {r : SemRef} {es : List Event} (ht : Traced t p es)
    (hw : p.waits = some (r, next)) : Traced t next es := by
  cases ht <;> simp only [Pt.waits, reduceCtorEq, Option.some.injEq, Prod.mk.injEq] at hw
  all_goals obtain ⟨_, rfl⟩ := hw
  · exact .execBody _
  · exact .execFork _ _
  · exact .joinInc _ _
  · exact .joinRead _

/-- The step lemma. -/
theorem Traced.step {es : List Event} (ht : Traced t (s.pt t) es) (hi : s.TableInv)
    (hz : ∀ a, (s.heap a).exitcode = 0) (h : s.Act l s')
    (hl : l.thread = t → ∃ nm, l = .run t nm) :
    ∃ new, s'.log = s.log ++ new ∧ Traced t (s'.pt t) (es ++ new.filter (Event.of t)) := by
  by_cases hlt : l.thread = t
  · obtain ⟨nm, rfl⟩ := hl hlt
    cases h with
    | fault hw hq hf | sleep hw hq hf hv => exact ⟨[], by simp, by simpa using ht⟩
    | take hw hq hf hv =>
      refine ⟨[], by simp, ?_⟩
      rw [goto_pt, Function.update_self, List.filter_nil, List.append_nil]
      exact ht.take hw
    | execFailed hp =>
      rename_i name m
      rw [hp] at ht
      cases ht
      refine ⟨[.printed m, .execReturned t (-1)], by simp [execReturn], ?_⟩
      simpa [execReturn, Event.of] using Traced.execFailed
    | create hp hlt hcl =>
      rename_i slot name
      rw [hp] at ht
      cases ht
      refine ⟨[.created t s.next slot], rfl, ?_⟩
      simpa [Event.of] using Traced.execMultexP s.next slot
    | fork hp =>
      rename_i a slot
      rw [hp] at ht
      cases ht
      refine ⟨[], by simp [Procs.execFork], ?_⟩
      simpa [Procs.execFork] using Traced.execUnlock a slot
    | execUnlock hp =>
      rename_i a slot
      rw [hp] at ht
      cases ht
      refine ⟨[], by simp, ?_⟩
      simpa using Traced.execDone a slot
    | execDone hp =>
      rename_i slot
      rw [hp] at ht
      cases ht with
      | execDone a slot =>
        refine ⟨[.execReturned t slot], by simp [execReturn], ?_⟩
        simpa [execReturn, Event.of] using Traced.executed a slot
    | joinInc hp =>
      rename_i id b
      rw [hp] at ht
      cases ht
      refine ⟨[], by simp, ?_⟩
      simpa using Traced.joinP id
    | joinPFault hp ha | joinReadFault hp ha => exact ⟨[], by simp, by simpa using ht⟩
    | joinP hp ha =>
      rename_i id a
      rw [hp] at ht
      cases ht
      refine ⟨[], by simp, ?_⟩
      simpa using Traced.joinWait id a
    | joinRead hp ha =>
      rename_i id a
      rw [hp] at ht
      cases ht
      refine ⟨[.joinRead t id 0], by simp [hz], ?_⟩
      simpa [hz, Event.of] using Traced.joinDone id
    | joinDone hp =>
      rename_i id ec
      rw [hp] at ht
      cases ht
      refine ⟨[.joinReturned t id 0], rfl, ?_⟩
      simpa [joinReturn, Event.of] using Traced.joined id
    | exitDec hp | exitRelease hp | exitP hp | remove hp =>
      rw [hp] at ht
      cases ht
  · obtain ⟨new, hlog, hnew⟩ := h.filter_others hlt
    refine ⟨new, hlog, ?_⟩
    rw [hnew, List.append_nil]
    rcases h.pt_others (Ne.symm hlt) with hpt | ⟨slot, hf, _⟩
    · rw [hpt]; exact ht
    · -- a thread in a call has been forked before
      obtain ⟨_, _, _, hun, _⟩ := hi.creating l.thread t slot (by rw [hf]; rfl)
      rw [hun] at ht
      cases ht

end Step

/-! ## Whole calls -/

/-- Reachable states when processes exit with the status 0, as `SC_Exit` does. -/
abbrev Normal (s : Procs) : Prop := Run.ReachBy step (fun _ l => l.ExitsNormally) Init s

theorem Normal.inv {s : Procs} (h : s.Normal) :
    s.TableInv ∧ ∀ a, (s.heap a).exitcode = 0 := by
  refine Run.ReachBy.inv (fun s => s.TableInv ∧ ∀ a, (s.heap a).exitcode = 0) ?_ ?_ h
  · rintro s ⟨words, rfl⟩
    exact ⟨tableInv_init ⟨words, rfl⟩, fun _ => rfl⟩
  · rintro s l s' ⟨hi, hz⟩ hl hs
    exact ⟨hi.step hs, (step_act hi hs).2.exitcodes hl hz⟩

/-- A state after a call that `t` made in `s`. -/
def Follows (s : Procs) (t : ℕ) (q : Procs) : Prop :=
  (q.TableInv ∧ ∀ a, (q.heap a).exitcode = 0) ∧
    ∃ log, q.log = s.log ++ log ∧ Traced t (q.pt t) (log.filter (Event.of t))

/-- The events of a call, first step included. -/
theorem Normal.traced {s s' : Procs} (h : s.Normal) {f : Label} {t : ℕ}
    (hf : (∃ name, f = .exec t name) ∨ ∃ id, f = .join t id) {ls : List Label}
    (hls : ∀ l ∈ ls, l.ExitsNormally ∧ (l.thread = t → ∃ nm, l = .run t nm))
    (he : Run.exec step s (f :: ls) = some s') :
    ∃ log, s'.log = s.log ++ log ∧ Traced t (s'.pt t) (log.filter (Event.of t)) := by
  obtain ⟨hi, hz⟩ := h.inv
  obtain ⟨s₁, h₁, he⟩ := Run.exec_cons_eq_some.mp he
  have hact := (step_act hi h₁).2
  have hz₁ : ∀ a, (s₁.heap a).exitcode = 0 := by
    refine hact.exitcodes ?_ hz
    rcases hf with ⟨name, rfl⟩ | ⟨id, rfl⟩ <;> trivial
  have hfirst : ∃ log, s₁.log = s.log ++ log ∧ Traced t (s₁.pt t) (log.filter (Event.of t)) := by
    rcases hf with ⟨name, rfl⟩ | ⟨id, rfl⟩
    · cases hact with
      | exec hp => exact ⟨[], by simp, by simpa using Traced.execP name⟩
    · cases hact with
      | joinRejected hp hr =>
        rename_i m
        refine ⟨[.joinCalled t id, .printed m, .joinReturned t id (-1)], by simp [joinReturn], ?_⟩
        simpa [joinReturn, Event.of] using Traced.joinFailed id
      | joinFault hp ha =>
        refine ⟨[.joinCalled t id], rfl, ?_⟩
        simpa [Event.of, hp] using Traced.joinFault
      | join hp ha hpar =>
        refine ⟨[.joinCalled t id], rfl, ?_⟩
        simpa [Event.of] using Traced.joinIncP id t
  have hstep : ∀ q l q', s.Follows t q →
      l.ExitsNormally ∧ (l.thread = t → ∃ nm, l = .run t nm) → step q l = some q' →
        s.Follows t q' := by
    rintro q l q' ⟨⟨hq, hzq⟩, log, hlog, htr⟩ ⟨hn, hl⟩ hs
    have ha := (step_act hq hs).2
    obtain ⟨new, hnew, htr'⟩ := htr.step hq hzq ha hl
    refine ⟨⟨hq.step hs, ha.exitcodes hn hzq⟩, log ++ new, ?_, ?_⟩
    · rw [hnew, hlog, List.append_assoc]
    · rwa [List.filter_append]
  exact (Run.exec_inv hstep ls s₁ s' ⟨⟨hi.step h₁, hz₁⟩, hfirst⟩ (Run.admits_of_forall hls s₁) he).2

/-- The events before the last one of a call. -/
theorem Traced.concat {t : ℕ} {es : List Event} {e : Event} (h : Traced t .user (es ++ [e])) :
    es = [] ∧ e = .execReturned t (-1) ∨
      (∃ a slot : ℕ, es = [.created t a slot] ∧ e = .execReturned t slot) ∨
      (∃ id, es = [] ∧ e = .joinReturned t id (-1)) ∨
      ∃ id, es = [.joinRead t id 0] ∧ e = .joinReturned t id 0 := by
  generalize hall : es ++ [e] = all at h
  have hes : es = all.dropLast := by rw [← hall, List.dropLast_concat]
  have he : all.getLast? = some e := by rw [← hall, List.getLast?_concat]
  cases h with
  | execFailed =>
    cases he
    exact Or.inl ⟨hes, rfl⟩
  | executed a slot =>
    cases he
    exact Or.inr (Or.inl ⟨a, slot, hes, rfl⟩)
  | joinFailed id =>
    cases he
    exact Or.inr (Or.inr (Or.inl ⟨id, hes, rfl⟩))
  | joined id =>
    cases he
    exact Or.inr (Or.inr (Or.inr ⟨id, hes, rfl⟩))
  | joinFault => cases he

end Procs

namespace Kernel.Called

variable {k k' : Kernel} {log : List Event}

/-- The thread's own events of a call that ended with `e`. -/
theorem traced (hk : k.pTab.Normal) {f : Procs.Label} {e : Event}
    (hf : (∃ name, f = .exec k.thread name) ∨ ∃ id, f = .join k.thread id)
    (he : Event.of k.thread e = true) (h : k.Called k' f (log ++ [e])) :
    Procs.Traced k.thread .user (log.filter (Event.of k.thread) ++ [e]) := by
  obtain ⟨hlog, ls, hls, hex, hu⟩ := h
  obtain ⟨log', hlog', htr⟩ := hk.traced hf hls hex
  rw [hlog] at hlog'
  obtain rfl := List.append_cancel_left hlog'
  rwa [hu, List.filter_append, List.filter_cons_of_pos he, List.filter_nil] at htr

/-- `ExecUpdate` returns -1 and has created nothing, or the slot of the process it created. -/
theorem exec (hk : k.pTab.Normal) {name : Option Name} {pid : ℤ}
    (h : k.Called k' (.exec k.thread name) (log ++ [.execReturned k.thread pid])) :
    (pid = -1 ∧ ∀ a slot, .created k.thread a slot ∉ log) ∨
      ∃ a slot : ℕ, pid = slot ∧ .created k.thread a slot ∈ log := by
  have htr := traced hk (Or.inl ⟨name, rfl⟩) (by simp [Event.of]) h
  rcases htr.concat with ⟨hes, he⟩ | ⟨a, slot, hes, he⟩ | ⟨id, _, he⟩ | ⟨id, _, he⟩
  · refine Or.inl ⟨by simpa using he, fun a slot hmem => ?_⟩
    exact List.filter_eq_nil_iff.mp hes _ hmem (by simp [Event.of])
  · refine Or.inr ⟨a, slot, by simpa using he, ?_⟩
    refine (List.mem_filter (p := Event.of k.thread)).mp ?_ |>.1
    rw [hes]
    exact List.mem_singleton_self _
  · cases he
  · cases he

/-- `JoinUpdate` returns -1 and has read no exit code, or the exit code it read, which is 0. -/
theorem join (hk : k.pTab.Normal) {id ec : ℤ}
    (h : k.Called k' (.join k.thread id) (log ++ [.joinReturned k.thread id ec])) :
    (ec = -1 ∧ ∀ i c, .joinRead k.thread i c ∉ log) ∨
      ec = 0 ∧ .joinRead k.thread id 0 ∈ log := by
  have htr := traced hk (Or.inr ⟨id, rfl⟩) (by simp [Event.of]) h
  rcases htr.concat with ⟨_, he⟩ | ⟨a, slot, _, he⟩ | ⟨i, hes, he⟩ | ⟨i, hes, he⟩
  · cases he
  · cases he
  · cases he
    refine Or.inl ⟨rfl, fun i c hmem => ?_⟩
    exact List.filter_eq_nil_iff.mp hes _ hmem (by simp [Event.of])
  · cases he
    refine Or.inr ⟨rfl, ?_⟩
    refine (List.mem_filter (p := Event.of k.thread)).mp ?_ |>.1
    rw [hes]
    exact List.mem_singleton_self _

end Kernel.Called

end Nachos
