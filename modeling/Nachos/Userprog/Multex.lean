import Nachos.Userprog.PTableActs

/-!
# The semaphore `multex` of a `PCB`

`multex` guards the wait count of a `PCB`. While the `PCB` is in use, its value is 1 and nobody is
between `P` and `V`, or its value is 0 and exactly one thread is; and as long as threads sleep on
it, some thread holds it or has been woken up for it (`MultexInv`). So a thread in `multex->P()`
gets through if the others are scheduled (`acquire`).
-/

namespace Nachos

/-- The semaphore a thread is in `P` of. -/
def Pt.waitsFor (p : Pt) : Option SemRef := p.waits.map Prod.fst

/-- The `PCB` whose `multex` a thread holds. -/
def Pt.holds : Pt → Option ℕ
  | .execFork a _ | .execUnlock a _ | .joinInc _ a | .exitDec a => some a
  | _ => none

theorem Pt.waitsFor_of_waits {p next : Pt} {r : SemRef} (h : p.waits = some (r, next)) :
    p.waitsFor = some r := by
  rw [Pt.waitsFor, h]; rfl

theorem Pt.waits_of_waitsFor {p : Pt} {r : SemRef} (h : p.waitsFor = some r) :
    ∃ next, p.waits = some (r, next) := by
  unfold Pt.waitsFor at h
  obtain ⟨⟨r', next⟩, hw, hr⟩ := Option.map_eq_some_iff.mp h
  exact ⟨next, by rw [hw, ← hr]⟩

/-- A thread in `P` holds no `multex`, and afterwards it holds the one it waited for. -/
theorem Pt.holds_of_waits {p next : Pt} {r : SemRef} (h : p.waits = some (r, next)) :
    p.holds = none ∧ next.waitsFor = none ∧ ∀ a, next.holds = some a ↔ r = .multex a := by
  cases p <;> simp [Pt.waits] at h <;> obtain ⟨rfl, rfl⟩ := h <;>
    simp [Pt.holds, Pt.waitsFor, Pt.waits]

namespace Procs

/-! ## The addresses in the points -/

/-- The `PCB`s a point mentions exist, and are the right ones. -/
def PointOk (s : Procs) (t : ℕ) : Pt → Prop
  | .execMultexP a _ | .execFork a _ | .execUnlock a _ => a < s.next
  | .joinIncP _ b | .joinInc _ b => b = t
  | .joinWait id a => a < s.next ∧ ((s.heap a).slot : ℤ) = id
  | .exitDecP b | .exitDec b => b < s.next
  | .exitWait a => a = t
  | _ => True

def PointInv (s : Procs) : Prop := ∀ t, s.PointOk t (s.pt t)

theorem PointOk.mono {s s' : Procs} {t : ℕ} {p : Pt} (hn : s.next ≤ s'.next)
    (hs : ∀ a, a < s.next → (s'.heap a).slot = (s.heap a).slot) (h : s.PointOk t p) :
    s'.PointOk t p := by
  cases p <;> simp only [PointOk] at h ⊢ <;> try omega
  obtain ⟨h1, h2⟩ := h
  exact ⟨by omega, by rw [hs _ h1, h2]⟩

/-- `PCB`s are never given back, and keep their slot. -/
theorem TableInv.next_slot {s s' : Procs} {l : Label} (hi : s.TableInv)
    (h : s.step l = some s') :
    s.next ≤ s'.next ∧ ∀ a, a < s.next → (s'.heap a).slot = (s.heap a).slot := by
  cases step_table h with
  | quiet hq =>
    exact ⟨(next_of_table hq.table).ge, fun a _ => slot_of_table hq.table a⟩
  | create slot name hfree hclear he =>
    subst he
    refine ⟨Nat.le_succ _, fun a ha => ?_⟩
    simp [newPCB, Nat.ne_of_lt ha]
  | fork b slot hp he =>
    subst he
    refine ⟨le_refl _, fun a _ => ?_⟩
    by_cases hab : a = b
    · subst hab; simp [execFork, modify]
    · simp [execFork, modify, hab]
  | remove hp he =>
    rw [(hi.remove_eq hp).2] at he
    subst he
    refine ⟨le_refl _, fun a _ => ?_⟩
    by_cases hab : a = l.thread
    · subst hab; simp [modify]
    · simp [modify, hab]

theorem pointOk_of_waits {s : Procs} {t : ℕ} {p next : Pt} {r : SemRef}
    (hw : p.waits = some (r, next)) (h : s.PointOk t p) : s.PointOk t next := by
  cases p <;> simp [Pt.waits] at hw <;> obtain ⟨_, rfl⟩ := hw <;> trivial

theorem TableInv.pcbAt_eq {s : Procs} (hi : s.TableInv) {i : ℤ} {b : ℕ} (hb : s.pcbAt i = some b) :
    b < s.next ∧ ((s.heap b).slot : ℤ) = i := by
  unfold pcbAt at hb
  split_ifs at hb with hr
  obtain ⟨h1, h2⟩ := hi.pointer _ _ hb
  exact ⟨h1, by rw [h2]; omega⟩

theorem PointInv.step {s s' : Procs} {l : Label} (hi : s.TableInv) (hp : s.PointInv)
    (h : s.step l = some s') : s'.PointInv := by
  obtain ⟨hn, hs⟩ := hi.next_slot h
  have hold : ∀ u, s'.PointOk u (s.pt u) := fun u => (hp u).mono hn hs
  have hact := (step_act hi h).2
  intro u
  by_cases hu : u = l.thread
  swap
  · rcases hact.pt_others hu with he | ⟨_, _, he⟩
    · rw [he]; exact hold u
    · rw [he]; trivial
  subst hu
  have hself := hold l.thread
  cases hact with
  | take hw hq hf hv =>
    simp only [Label.thread, goto_pt, Function.update_self]
    exact pointOk_of_waits hw hself
  | join hpt ha hpar =>
    simp only [Label.thread, goto_pt, Function.update_self]
    rfl
  | exit hpt hb =>
    simp only [Label.thread, goto_pt, Function.update_self]
    exact lt_of_lt_of_le (hi.pcbAt_eq hb).1 hn
  | create hpt hlt hc =>
    simp only [Label.thread, goto_pt, Function.update_self]
    exact Nat.lt_succ_self _
  | fork hpt =>
    rw [Label.thread, hpt] at hself
    simp only [Label.thread, execFork, goto_pt, Function.update_self]
    exact hself
  | joinP hpt ha =>
    obtain ⟨h1, h2⟩ := hi.pcbAt_eq ha
    simp only [Label.thread, goto_pt, Function.update_self]
    exact ⟨h1, h2⟩
  | exitP hpt =>
    simp only [Label.thread, goto_pt, Function.update_self]
    rfl
  | joinFault | exitHalt | exitFault | fault | sleep | joinPFault | joinReadFault => exact hself
  | _ =>
    simp only [Label.thread, joinReturn, execReturn, goto_pt, Function.update_self]
    trivial

/-! ## One holder -/

/-- `multex` of the `PCB` `a` is a lock, and nobody sleeps on it for no reason. -/
structure MultexInv (s : Procs) (a : ℕ) : Prop where
  count : ((s.sems (.multex a)).value = 1 ∧ ∀ t, (s.pt t).holds ≠ some a) ∨
    ((s.sems (.multex a)).value = 0 ∧ ∃ t, (s.pt t).holds = some a ∧
      ∀ u, (s.pt u).holds = some a → u = t)
  queued : ∀ t ∈ (s.sems (.multex a)).queue, (s.pt t).waitsFor = some (.multex a)
  nodup : (s.sems (.multex a)).queue.Nodup
  awake : (s.sems (.multex a)).queue ≠ [] → (∃ t, (s.pt t).holds = some a) ∨
    ∃ t, (s.pt t).waitsFor = some (.multex a) ∧ t ∉ (s.sems (.multex a)).queue

/-- What a step of thread `t` does to `multex` of the `PCB` `a`. -/
inductive MultexStep (s : Procs) (t a : ℕ) (s' : Procs) : Prop
  | idle (hsem : s'.sems (.multex a) = s.sems (.multex a))
      (hold : ∀ u, (s'.pt u).holds = some a ↔ (s.pt u).holds = some a)
      (hwait : ∀ u, (s.pt u).waitsFor = some (.multex a) → (s'.pt u).waitsFor = some (.multex a))
  | sleep (hw : (s.pt t).waitsFor = some (.multex a)) (hq : t ∉ (s.sems (.multex a)).queue)
      (hv : (s.sems (.multex a)).value = 0)
      (hsem : s'.sems (.multex a) =
        { s.sems (.multex a) with queue := (s.sems (.multex a)).queue ++ [t] })
      (hpt : s'.pt = s.pt)
  | take (hw : (s.pt t).waitsFor = some (.multex a)) (hq : t ∉ (s.sems (.multex a)).queue)
      (hv : (s.sems (.multex a)).value ≠ 0)
      (hsem : s'.sems (.multex a) =
        { s.sems (.multex a) with value := intPred (s.sems (.multex a)).value })
      (hpt : ∀ u, u ≠ t → s'.pt u = s.pt u) (hold : (s'.pt t).holds = some a)
  | signal (hh : (s.pt t).holds = some a) (hsem : s'.sems (.multex a) = (s.sems (.multex a)).V)
      (hpt : ∀ u, u ≠ t → s'.pt u = s.pt u) (hold : (s'.pt t).holds = none)

theorem MultexInv.step {s s' : Procs} {t a : ℕ} (hm : s.MultexInv a) (h : s.MultexStep t a s') :
    s'.MultexInv a := by
  have hex : ∀ {p : Pt}, p.waitsFor = some (.multex a) → p.holds ≠ some a := by
    intro p hw
    rcases hp : p.waits with _ | ⟨r, next⟩
    · rw [Pt.waitsFor, hp] at hw; cases hw
    · rw [(Pt.holds_of_waits hp).1]; exact nofun
  cases h with
  | idle hsem hold hwait =>
    refine ⟨?_, ?_, by rw [hsem]; exact hm.nodup, ?_⟩
    · simp only [hsem, hold, ne_eq]; exact hm.count
    · rw [hsem]; exact fun u hu => hwait u (hm.queued u hu)
    · rw [hsem]
      intro hne
      rcases hm.awake hne with ⟨u, hu⟩ | ⟨u, hu, huq⟩
      · exact Or.inl ⟨u, (hold u).mpr hu⟩
      · exact Or.inr ⟨u, hwait u hu, huq⟩
  | sleep hw hq hv hsem hpt =>
    have hcount := hm.count
    refine ⟨by rw [hsem, hpt]; exact hcount, ?_, ?_, ?_⟩
    · rw [hsem, hpt]
      intro u hu
      rcases List.mem_append.mp hu with hu | hu
      · exact hm.queued u hu
      · rw [List.mem_singleton.mp hu]; exact hw
    · rw [hsem]
      exact List.Nodup.append hm.nodup (List.nodup_singleton t)
        (List.disjoint_singleton.mpr hq)
    · -- the value is 0, so somebody holds it
      intro _
      rw [hpt]
      rcases hcount with ⟨h1, _⟩ | ⟨_, u, hu, _⟩
      · omega
      · exact Or.inl ⟨u, hu⟩
  | take hw hq hv hsem hpt hold =>
    obtain ⟨h1, hnone⟩ : (s.sems (.multex a)).value = 1 ∧ ∀ u, (s.pt u).holds ≠ some a := by
      rcases hm.count with h | ⟨h0, _⟩
      · exact h
      · exact absurd h0 hv
    refine ⟨Or.inr ⟨by rw [hsem]; exact congrArg intPred h1, t, hold, fun u hu => ?_⟩, ?_, ?_, ?_⟩
    · by_contra hut
      rw [hpt u hut] at hu
      exact hnone u hu
    · rw [hsem]
      intro u hu
      have hut : u ≠ t := by rintro rfl; exact hq hu
      rw [hpt u hut]
      exact hm.queued u hu
    · rw [hsem]; exact hm.nodup
    · exact fun _ => Or.inl ⟨t, hold⟩
  | signal hh hsem hpt hold =>
    obtain ⟨h0, huniq⟩ : (s.sems (.multex a)).value = 0 ∧
        ∀ u, (s.pt u).holds = some a → u = t := by
      rcases hm.count with ⟨_, hnone⟩ | ⟨h0, u, _, huniq⟩
      · exact absurd hh (hnone t)
      · exact ⟨h0, fun w hw => (huniq w hw).trans (huniq t hh).symm⟩
    have hne : ∀ u, (s.pt u).waitsFor = some (.multex a) → u ≠ t := by
      rintro u hu rfl
      exact hex hu hh
    refine ⟨Or.inl ⟨?_, fun u hu => ?_⟩, ?_, ?_, ?_⟩
    · rw [hsem]; exact Semaphore.V_zero h0
    · by_cases hut : u = t
      · rw [hut, hold] at hu; cases hu
      · rw [hpt u hut] at hu; exact hut (huniq u hu)
    · rw [hsem]
      intro u hu
      have hu := hm.queued u (List.mem_of_mem_tail hu)
      rw [hpt u (hne u hu)]
      exact hu
    · rw [hsem]; exact hm.nodup.sublist (List.tail_sublist _)
    · -- the head of the queue has been woken up
      rw [hsem]
      rcases hq : (s.sems (.multex a)).queue with _ | ⟨w, q⟩
      · intro h; simp [Semaphore.V, hq] at h
      · intro _
        have hw : (s.pt w).waitsFor = some (.multex a) :=
          hm.queued w (by rw [hq]; exact List.mem_cons_self)
        have hnd := hm.nodup
        rw [hq] at hnd
        refine Or.inr ⟨w, by rw [hpt w (hne w hw)]; exact hw, ?_⟩
        simp only [Semaphore.V, hq, List.tail_cons]
        exact (List.nodup_cons.mp hnd).1

section Classify

variable {s s' : Procs} {t a : ℕ}

theorem MultexStep.idle_goto (p : Pt) (hsem : s'.sems (.multex a) = s.sems (.multex a))
    (hpt : s'.pt = Function.update s.pt t p) (hold : p.holds = some a ↔ (s.pt t).holds = some a)
    (hwait : (s.pt t).waitsFor ≠ some (.multex a)) : s.MultexStep t a s' := by
  refine .idle hsem (fun u => ?_) (fun u hu => ?_)
  · by_cases hut : u = t
    · rw [hpt, hut, Function.update_self]; exact hold
    · rw [hpt, Function.update_of_ne hut]
  · have hut : u ≠ t := by rintro rfl; exact hwait hu
    rw [hpt, Function.update_of_ne hut]; exact hu

theorem MultexStep.still (hsem : s'.sems (.multex a) = s.sems (.multex a)) (hpt : s'.pt = s.pt) :
    s.MultexStep t a s' :=
  .idle hsem (fun u => by rw [hpt]) (fun u hu => by rw [hpt]; exact hu)

/-- A block that ends with `multex->V()` of `b`, which it holds. -/
theorem MultexStep.signal_goto {q : Procs} {b : ℕ} {p : Pt} (ha : s.Live a)
    (hb : (s.pt t).holds = some b) (hw : (s.pt t).waitsFor = none) (hsems : q.sems = s.sems)
    (hpt : q.pt = s.pt) (hdel : (q.heap a).deleted = (s.heap a).deleted) (hp : p.holds = none) :
    s.MultexStep t a ((q.V (.multex b)).goto t p) := by
  have hpt' : ((q.V (.multex b)).goto t p).pt = Function.update s.pt t p := by
    rw [goto_pt, V_pt, hpt]
  by_cases hab : b = a
  · subst hab
    have hf : q.freed (.multex b) = false := hdel.trans ha.2
    refine .signal hb ?_ (fun u hu => ?_) ?_
    · rw [goto_sems, V_eq hf, setSem_sems, Function.update_self, hsems]
    · rw [hpt', Function.update_of_ne hu]
    · rw [hpt', Function.update_self, hp]
  · have hne : SemRef.multex a ≠ .multex b := fun h => hab (SemRef.multex.inj h).symm
    refine .idle_goto p ?_ hpt' ?_ (by rw [hw]; exact nofun)
    · rw [goto_sems, V_sems_of_ne _ _ hne, hsems]
    · rw [hp, hb]
      constructor
      · exact nofun
      · intro h; exact absurd (Option.some.inj h) hab

theorem Act.multex {l : Label} (hi : s.TableInv) (h : s.Act l s') (ha : s.Live a) :
    s.MultexStep l.thread a s' := by
  have hV : ∀ (q : Procs) (r : SemRef), (∀ b, r ≠ .multex b) →
      (q.V r).sems (.multex a) = q.sems (.multex a) := fun q r hr =>
    V_sems_of_ne _ _ (Ne.symm (hr a))
  have hmod : ∀ (b : ℕ) (f : PCB → PCB), (∀ c, (f c).deleted = c.deleted) →
      ((s.modify b f).heap a).deleted = (s.heap a).deleted := by
    intro b f hf
    by_cases hab : a = b
    · subst hab; simp [modify, hf]
    · simp [modify, hab]
  cases h with
  | exec hp | join hp _ _ | joinRejected hp _ | exit hp _ =>
    refine .idle_goto _ rfl rfl ?_ ?_ <;>
      simp [Label.thread, hp, Pt.holds, Pt.waitsFor, Pt.waits]
  | joinFault | exitHalt | exitFault | fault | joinPFault | joinReadFault => exact .still rfl rfl
  | joinP hp _ | joinDone hp | exitP hp | remove hp =>
    refine .idle_goto _ rfl rfl ?_ ?_ <;>
      simp [Label.thread, hp, Pt.holds, Pt.waitsFor, Pt.waits]
  | sleep hw hq hf hv =>
    rename_i t nm r next
    show s.MultexStep t a _
    by_cases hr : r = .multex a
    · subst hr
      exact .sleep (Pt.waitsFor_of_waits hw) hq hv (by simp) rfl
    · exact .still (by simp [Ne.symm hr]) rfl
  | take hw hq hf hv =>
    rename_i t nm r next
    show s.MultexStep t a _
    obtain ⟨h1, h2, h3⟩ := Pt.holds_of_waits hw
    by_cases hr : r = .multex a
    · subst hr
      refine .take (Pt.waitsFor_of_waits hw) hq hv (by simp) (fun u hu => ?_) ?_
      · rw [goto_pt, Function.update_of_ne hu, setSem_pt]
      · rw [goto_pt, Function.update_self]; exact (h3 a).mpr rfl
    · refine .idle_goto _ (by simp [Ne.symm hr]) rfl ?_ ?_
      · rw [h3, h1]; simp [hr]
      · rw [Pt.waitsFor_of_waits hw]; simp [hr]
  | execFailed hp =>
    refine .idle_goto .user ?_ ?_ ?_ ?_
    · simp only [execReturn, goto_sems, emit_sems]
      rw [hV _ .bmsem (by simp), emit_sems]
    · simp [execReturn, Label.thread]
    · simp [Label.thread, hp, Pt.holds]
    · simp [Label.thread, hp, Pt.waitsFor, Pt.waits]
  | execDone hp =>
    refine .idle_goto .user ?_ ?_ ?_ ?_
    · simp only [execReturn, goto_sems, emit_sems]
      rw [hV _ .bmsem (by simp)]
    · simp [execReturn, Label.thread]
    · simp [Label.thread, hp, Pt.holds]
    · simp [Label.thread, hp, Pt.waitsFor, Pt.waits]
  | create hp hlt hc =>
    have hne : a ≠ s.next := Nat.ne_of_lt ha.1
    refine .idle_goto _ (by simp [newPCB, hne]) rfl ?_ ?_ <;>
      simp [Label.thread, hp, Pt.holds, Pt.waitsFor, Pt.waits]
  | fork hp =>
    rename_i t nm b slot
    obtain ⟨_, _, _, hun, _⟩ := hi.creating t b slot (by rw [hp]; rfl)
    have hbt : b ≠ t := by rintro rfl; rw [hp] at hun; cases hun
    refine .idle rfl (fun u => ?_) (fun u hu => ?_)
    · by_cases hut : u = t
      · subst hut; simp [execFork, hp, Pt.holds]
      · by_cases hub : u = b
        · subst hub; simp [execFork, hut, hun, Pt.holds]
        · simp [execFork, hut, hub]
    · have hut : u ≠ t := by rintro rfl; rw [hp] at hu; cases hu
      have hub : u ≠ b := by rintro rfl; rw [hun] at hu; cases hu
      simpa [execFork, hut, hub] using hu
  | execUnlock hp =>
    exact .signal_goto ha (by rw [Label.thread, hp]; rfl) (by rw [Label.thread, hp]; rfl) rfl rfl
      rfl rfl
  | joinInc hp =>
    exact .signal_goto ha (by rw [Label.thread, hp]; rfl) (by rw [Label.thread, hp]; rfl) rfl rfl
      (hmod _ _ fun _ => rfl) rfl
  | exitDec hp =>
    exact .signal_goto ha (by rw [Label.thread, hp]; rfl) (by rw [Label.thread, hp]; rfl) rfl rfl
      (hmod _ _ fun _ => rfl) rfl
  | joinRead hp _ =>
    rename_i t nm id b _
    refine .idle_goto (.joinDone id (s.heap b).exitcode) ?_ ?_ ?_ ?_
    · rw [goto_sems, hV _ (.exitsem b) (by simp), emit_sems]
    · simp [Label.thread]
    · simp [Label.thread, hp, Pt.holds]
    · simp [Label.thread, hp, Pt.waitsFor, Pt.waits]
  | exitRelease hp =>
    refine .idle_goto .exitP ?_ ?_ ?_ ?_
    · rw [goto_sems, hV _ (.joinsem _) (by simp)]
    · simp [Label.thread]
    · simp [Label.thread, hp, Pt.holds]
    · simp [Label.thread, hp, Pt.waitsFor, Pt.waits]

end Classify

/-- What every reachable state has. -/
structure LockInv (s : Procs) : Prop where
  table : s.TableInv
  points : s.PointInv
  multex : ∀ a, s.Live a → s.MultexInv a

theorem LockInv.holds_lt {s : Procs} (hi : s.LockInv) {t a : ℕ} (h : (s.pt t).holds = some a) :
    a < s.next := by
  have hp := hi.points t
  have hact : (s.pt t).active = true := by
    cases hpt : s.pt t <;> rw [hpt] at h <;> first | rfl | cases h
  have hlt := (hi.table.running t hact).1.1
  cases hpt : s.pt t <;> rw [hpt] at h hp <;> simp only [Pt.holds, reduceCtorEq] at h <;>
    simp only [PointOk] at hp <;> rw [← Option.some.inj h] <;> omega

/-- A `PCB` in use after a step was in use before, or is the one the step creates. -/
theorem TableInv.live_before {s s' : Procs} {l : Label} (hi : s.TableInv) (h : s.step l = some s')
    {a : ℕ} (ha : s'.Live a) : s.Live a ∨ ∃ slot name, a = s.next ∧
      s' = (({ s with bm := s.bm.mark slot }.newPCB l.thread slot name).emit
        (.created l.thread s.next slot)).goto l.thread (.execMultexP s.next slot) := by
  cases step_table h with
  | quiet hq => exact Or.inl ((live_of_table hq.table a).mp ha)
  | create slot name hfree hclear he =>
    by_cases han : a = s.next
    · exact Or.inr ⟨slot, name, han, he⟩
    · subst he
      obtain ⟨h1, h2⟩ := ha
      have h1 : a < s.next + 1 := h1
      simp [newPCB, han] at h2
      exact Or.inl ⟨by omega, h2⟩
  | fork b slot hp he =>
    subst he
    obtain ⟨h1, h2⟩ := ha
    refine Or.inl ⟨h1, ?_⟩
    by_cases hab : a = b
    · subst hab; simpa [execFork, modify] using h2
    · simpa [execFork, modify, hab] using h2
  | remove hp he =>
    rw [(hi.remove_eq hp).2] at he
    subst he
    obtain ⟨h1, h2⟩ := ha
    refine Or.inl ⟨h1, ?_⟩
    by_cases hat : a = l.thread
    · subst hat; simp [modify] at h2
    · simpa [modify, hat] using h2

theorem LockInv.step {s s' : Procs} {l : Label} (hi : s.LockInv) (h : s.step l = some s') :
    s'.LockInv := by
  refine ⟨hi.table.step h, hi.points.step hi.table h, fun a ha => ?_⟩
  rcases hi.table.live_before h ha with hl | ⟨slot, name, rfl, he⟩
  · exact (hi.multex a hl).step ((step_act hi.table h).2.multex hi.table hl)
  · have hsem : s'.sems (.multex s.next) = Semaphore.new 1 := by rw [he]; simp [newPCB]
    have hpt : s'.pt = Function.update s.pt l.thread (.execMultexP s.next slot) := by rw [he]; rfl
    -- nobody can know the new `PCB`
    refine ⟨Or.inl ⟨by rw [hsem]; rfl, fun t ht => ?_⟩, ?_, ?_, ?_⟩
    · by_cases htl : t = l.thread
      · rw [hpt, htl, Function.update_self] at ht; cases ht
      · rw [hpt, Function.update_of_ne htl] at ht
        exact absurd (hi.holds_lt ht) (by omega)
    · rw [hsem]; simp [Semaphore.new]
    · rw [hsem]; exact List.nodup_nil
    · rw [hsem]; exact fun h => absurd rfl h

theorem lockInv_init {s : Procs} (h : s.Init) : s.LockInv := by
  have ht := tableInv_init h
  obtain ⟨words, rfl⟩ := h
  have hpt : ∀ t, (initial words).pt t = .user ∨ (initial words).pt t = .unborn := by
    intro t
    show (if t = 0 then Pt.user else .unborn) = _ ∨ _
    split_ifs
    · exact Or.inl rfl
    · exact Or.inr (if_neg ‹_›)
  refine ⟨ht, fun t => ?_, fun a ha => ⟨Or.inl ⟨rfl, fun t => ?_⟩, nofun, List.nodup_nil,
    fun h => absurd rfl h⟩⟩
  · rcases hpt t with h | h <;> rw [h] <;> trivial
  · rcases hpt t with h | h <;> rw [h] <;> exact nofun

theorem lockInv_reach {s : Procs} (h : Run.Reach step Init s) : s.LockInv :=
  h.inv LockInv (fun _ => lockInv_init) fun _ _ _ hi => hi.step

/-! ## Getting through -/

/-- The scheduler can lead from `s` to `s'` without a call and without bringing the machine
down. -/
def Leads (s s' : Procs) : Prop :=
  ∃ ls : List Label, (∀ l ∈ ls, ∃ t nm, l = .run t nm) ∧ Run.exec step s ls = some s' ∧
    s'.down = none

namespace Leads

variable {s s₁ s₂ : Procs}

theorem refl (hd : s.down = none) : s.Leads s := ⟨[], nofun, rfl, hd⟩

theorem of_step {t : ℕ} {nm : Name} (h : s.step (.run t nm) = some s₁) (hd : s₁.down = none) :
    s.Leads s₁ := by
  refine ⟨[.run t nm], fun l hl => ⟨t, nm, List.mem_singleton.mp hl⟩, ?_, hd⟩
  exact Run.exec_cons_eq_some.mpr ⟨s₁, h, rfl⟩

theorem trans (h₁ : s.Leads s₁) (h₂ : s₁.Leads s₂) : s.Leads s₂ := by
  obtain ⟨ls, hl, he, _⟩ := h₁
  obtain ⟨ms, hm, hf, hd⟩ := h₂
  refine ⟨ls ++ ms, fun l h => ?_, Run.exec_append.mpr ⟨s₁, he, hf⟩, hd⟩
  rcases List.mem_append.mp h with h | h
  · exact hl l h
  · exact hm l h

theorem down (h : s.Leads s₁) : s₁.down = none := by
  obtain ⟨_, _, _, hd⟩ := h
  exact hd

theorem lockInv (hi : s.LockInv) (h : s.Leads s₁) : s₁.LockInv := by
  obtain ⟨ls, _, he, _⟩ := h
  exact Run.exec_inv (fun _ _ _ hi _ hs => LockInv.step hi hs) ls s s₁ hi (Run.admits_true s ls) he

end Leads

section Progress

variable {s : Procs} {t a : ℕ}

theorem step_wait (hd : s.down = none) {r : SemRef} {next : Pt}
    (hw : (s.pt t).waits = some (r, next)) (hq : t ∉ (s.sems r).queue) (hf : s.freed r = false)
    (hv : (s.sems r).value ≠ 0) :
    s.step (.run t []) =
      some ((s.setSem r { s.sems r with value := intPred (s.sems r).value }).goto t next) := by
  unfold step
  simp only [hd, Option.isSome_none, Bool.false_eq_true, if_false, hw]
  unfold P
  rw [if_neg hq, hf, Semaphore.P_pos hv]
  rfl

theorem step_block (hd : s.down = none) (hw : (s.pt t).waits = none) :
    s.step (.run t []) = s.block t [] := by
  unfold step
  simp only [hd, Option.isSome_none, Bool.false_eq_true, if_false, hw]

theorem V_down {r : SemRef} (hf : s.freed r = false) : (s.V r).down = s.down := by
  rw [V_eq hf]; rfl

/-- A block that ends with `multex->V()`. -/
theorem leads_signal {q : Procs} {p : Pt} (hd : s.down = none) (ha : s.Live a)
    (hw : (s.pt t).waits = none) (hb : s.block t [] = some ((q.V (.multex a)).goto t p))
    (hsems : q.sems = s.sems) (hpt : q.pt = s.pt) (hdown : q.down = s.down)
    (hnext : q.next = s.next) (hdel : (q.heap a).deleted = (s.heap a).deleted) :
    ∃ s', s.Leads s' ∧ s'.sems (.multex a) = (s.sems (.multex a)).V ∧ s'.Live a ∧
      ∀ w, w ≠ t → s'.pt w = s.pt w := by
  have hf : q.freed (.multex a) = false := hdel.trans ha.2
  refine ⟨_, .of_step ((step_block hd hw).trans hb) ?_, ?_, ?_, fun w hwt => ?_⟩
  · show (q.V (.multex a)).down = none
    rw [V_down hf, hdown, hd]
  · rw [goto_sems, V_eq hf, setSem_sems, Function.update_self, hsems]
  · rw [V_eq hf]
    exact ⟨by show a < q.next; rw [hnext]; exact ha.1, hf⟩
  · rw [goto_pt, V_pt, hpt, Function.update_of_ne hwt]

/-- The holder of `multex` can go on and release it. -/
theorem LockInv.release (hi : s.LockInv) (hd : s.down = none) (ha : s.Live a)
    (hh : (s.pt t).holds = some a) :
    ∃ s', s.Leads s' ∧ s'.sems (.multex a) = (s.sems (.multex a)).V ∧ s'.Live a ∧
      ∀ w, w ≠ t → (s.pt w).active = true → s'.pt w = s.pt w := by
  have hmod : ∀ (b : ℕ) (f : PCB → PCB), (∀ c, (f c).deleted = c.deleted) →
      ((s.modify b f).heap a).deleted = (s.heap a).deleted := by
    intro b f hf
    by_cases hab : a = b
    · subst hab; simp [modify, hf]
    · simp [modify, hab]
  cases hp : s.pt t <;> rw [hp] at hh <;> simp only [Pt.holds, reduceCtorEq, Option.some.injEq] at hh
  case joinInc id b =>
    subst hh
    obtain ⟨s', h1, h2, h3, h4⟩ := @leads_signal s t b
      (s.modify b fun p => { p with numwait := p.numwait + 1 }) (.joinP id) hd ha (by rw [hp]; rfl)
      (by unfold block; rw [hp]) rfl rfl rfl rfl (hmod _ _ fun _ => rfl)
    exact ⟨s', h1, h2, h3, fun w hw _ => h4 w hw⟩
  case exitDec b =>
    subst hh
    obtain ⟨s', h1, h2, h3, h4⟩ := @leads_signal s t b (s.modify b fun p =>
        { p with numwait := if p.numwait > 0 then p.numwait - 1 else p.numwait }) .exitRelease hd ha
      (by rw [hp]; rfl) (by unfold block; rw [hp]) rfl rfl rfl rfl (hmod _ _ fun _ => rfl)
    exact ⟨s', h1, h2, h3, fun w hw _ => h4 w hw⟩
  case execUnlock b slot =>
    subst hh
    obtain ⟨s', h1, h2, h3, h4⟩ := @leads_signal s t b s (.execDone slot) hd ha (by rw [hp]; rfl)
      (by unfold block; rw [hp]) rfl rfl rfl rfl rfl
    exact ⟨s', h1, h2, h3, fun w hw _ => h4 w hw⟩
  case execFork b slot =>
    -- `Fork` comes first
    subst hh
    obtain ⟨_, _, _, hun, _⟩ := hi.table.creating t b slot (by rw [hp]; rfl)
    have hs₁ : s.step (.run t []) = some (s.execFork t b slot) := by
      rw [step_block hd (by rw [hp]; rfl)]; unfold block; rw [hp]
    have hpt : (s.execFork t b slot).pt t = .execUnlock b slot := by simp [execFork]
    have ha₁ : (s.execFork t b slot).Live b := by
      refine ⟨ha.1, ?_⟩
      simpa [execFork, modify] using ha.2
    obtain ⟨s', h1, h2, h3, h4⟩ := @leads_signal (s.execFork t b slot) t b
      (s.execFork t b slot) (.execDone slot) hd ha₁ (by rw [hpt]; rfl)
      (by unfold block; rw [hpt]) rfl rfl rfl rfl rfl
    refine ⟨s', .trans (.of_step hs₁ hd) h1, h2, h3, fun w hw hact => ?_⟩
    have hwb : w ≠ b := by rintro rfl; rw [hun] at hact; cases hact
    rw [h4 w hw]
    simp [execFork, hw, hwb, modify]

/-- A thread that has nothing to do with `multex` of `a`. -/
def Apart (s : Procs) (a u : ℕ) : Prop :=
  (s.pt u).active = true ∧ (s.pt u).waitsFor ≠ some (.multex a) ∧ (s.pt u).holds ≠ some a

/-- As long as threads sleep on `multex`, somebody holds it or can take it. -/
theorem LockInv.holder (hi : s.LockInv) (hd : s.down = none) (ha : s.Live a)
    (ht : t ∈ (s.sems (.multex a)).queue) :
    ∃ s' w, s.Leads s' ∧ (s'.pt w).holds = some a ∧ s'.Live a ∧ s'.pt t = s.pt t ∧
      (s'.sems (.multex a)).queue = (s.sems (.multex a)).queue ∧
        ∀ u, s.Apart a u → s'.pt u = s.pt u := by
  have hm := hi.multex a ha
  by_cases hex : ∃ w, (s.pt w).holds = some a
  · obtain ⟨w, hw⟩ := hex
    exact ⟨s, w, .refl hd, hw, ha, rfl, rfl, fun _ _ => rfl⟩
  · have hv : (s.sems (.multex a)).value = 1 := by
      rcases hm.count with ⟨h1, _⟩ | ⟨_, w, hw, _⟩
      · exact h1
      · exact absurd ⟨w, hw⟩ hex
    obtain ⟨w, hw, hwq⟩ := (hm.awake (List.ne_nil_of_mem ht)).resolve_left hex
    obtain ⟨next, hnext⟩ := Pt.waits_of_waitsFor hw
    have hwt : t ≠ w := by rintro rfl; exact hwq ht
    refine ⟨_, w, .of_step (step_wait hd hnext hwq ha.2 (by rw [hv]; exact one_ne_zero)) hd, ?_, ha,
      ?_, ?_, fun u hu => ?_⟩
    · rw [goto_pt, Function.update_self]
      exact ((Pt.holds_of_waits hnext).2.2 a).mpr rfl
    · rw [goto_pt, Function.update_of_ne hwt, setSem_pt]
    · rw [goto_sems, setSem_sems, Function.update_self]
    · have huw : u ≠ w := by rintro rfl; exact hu.2.1 hw
      rw [goto_pt, Function.update_of_ne huw, setSem_pt]

/-- A thread that does not sleep takes `multex` at once, or after its holder. -/
theorem LockInv.acquire_awake {next : Pt} (hi : s.LockInv) (hd : s.down = none) (ha : s.Live a)
    (hw : (s.pt t).waits = some (.multex a, next)) (hq : t ∉ (s.sems (.multex a)).queue) :
    ∃ s', s.Leads s' ∧ s'.pt t = next ∧ ∀ u, s.Apart a u → s'.pt u = s.pt u := by
  have hapart : ∀ u, s.Apart a u → u ≠ t := by
    rintro u hu rfl
    exact hu.2.1 (Pt.waitsFor_of_waits hw)
  rcases (hi.multex a ha).count with ⟨hv, _⟩ | ⟨hv, w, hh, _⟩
  · refine ⟨_, .of_step (step_wait hd hw hq ha.2 (by rw [hv]; exact one_ne_zero)) hd, ?_,
      fun u hu => ?_⟩
    · rw [goto_pt, Function.update_self]
    · rw [goto_pt, Function.update_of_ne (hapart u hu), setSem_pt]
  · have hwt : t ≠ w := by
      rintro rfl
      rw [(Pt.holds_of_waits hw).1] at hh
      cases hh
    obtain ⟨s₁, h₁, hsem, ha₁, hpt₁⟩ := hi.release hd ha hh
    have hpt : s₁.pt t = s.pt t := hpt₁ t hwt (@Move.of_waits 0 _ _ _ hw).1
    have hv₁ : (s₁.sems (.multex a)).value = 1 := by rw [hsem, Semaphore.V, hv]; rfl
    have hq₁ : t ∉ (s₁.sems (.multex a)).queue := by
      rw [hsem]
      exact fun h => hq (List.mem_of_mem_tail h)
    refine ⟨_, h₁.trans (.of_step (step_wait h₁.down (by rw [hpt, hw]) hq₁ ha₁.2
      (by rw [hv₁]; exact one_ne_zero)) h₁.down), ?_, fun u hu => ?_⟩
    · rw [goto_pt, Function.update_self]
    · have huw : u ≠ w := by rintro rfl; exact hu.2.2 hh
      rw [goto_pt, Function.update_of_ne (hapart u hu), setSem_pt, hpt₁ u huw hu.1]

/-- A thread in `multex->P()` of a `PCB` in use gets through if the others are scheduled. The
induction is on the number of sleepers: each release takes one of them off the queue. -/
theorem LockInv.acquire_of_length {next : Pt} (n : ℕ) : ∀ s : Procs, s.LockInv → s.down = none →
    s.Live a → (s.sems (.multex a)).queue.length = n → (s.pt t).waits = some (.multex a, next) →
      ∃ s', s.Leads s' ∧ s'.pt t = next ∧ ∀ u, s.Apart a u → s'.pt u = s.pt u := by
  induction n with
  | zero =>
    intro s hi hd ha hn hw
    have hq : (s.sems (.multex a)).queue = [] := List.eq_nil_of_length_eq_zero hn
    exact hi.acquire_awake hd ha hw (by rw [hq]; exact List.not_mem_nil)
  | succ n ih =>
    intro s hi hd ha hn hw
    by_cases hq : t ∈ (s.sems (.multex a)).queue
    · obtain ⟨s₁, w, h₁, hh, ha₁, hpt₁, hq₁, hap₁⟩ := hi.holder hd ha hq
      have hi₁ := h₁.lockInv hi
      have hwt : t ≠ w := by
        rintro rfl
        rw [hpt₁, (Pt.holds_of_waits hw).1] at hh
        cases hh
      obtain ⟨s₂, h₂, hsem, ha₂, hpt₂⟩ := hi₁.release h₁.down ha₁ hh
      have hpt : s₂.pt t = s.pt t := by
        rw [hpt₂ t hwt (by rw [hpt₁]; exact (@Move.of_waits 0 _ _ _ hw).1), hpt₁]
      have hlen : (s₂.sems (.multex a)).queue.length = n := by
        rw [hsem, Semaphore.V, List.length_tail, hq₁, hn]
        rfl
      have hap₂ : ∀ u, s.Apart a u → s₂.pt u = s.pt u := by
        intro u hu
        have huw : u ≠ w := by
          rintro rfl
          rw [hap₁ u hu] at hh
          exact hu.2.2 hh
        rw [hpt₂ u huw (by rw [hap₁ u hu]; exact hu.1), hap₁ u hu]
      obtain ⟨s₃, h₃, hpt₃, hap₃⟩ := ih s₂ (h₂.lockInv hi₁) h₂.down ha₂ hlen (by rw [hpt, hw])
      refine ⟨s₃, (h₁.trans h₂).trans h₃, hpt₃, fun u hu => ?_⟩
      rw [hap₃ u (by unfold Apart; rw [hap₂ u hu]; exact hu), hap₂ u hu]
    · exact hi.acquire_awake hd ha hw hq

theorem LockInv.acquire {next : Pt} (hi : s.LockInv) (hd : s.down = none) (ha : s.Live a)
    (hw : (s.pt t).waits = some (.multex a, next)) :
    ∃ s', s.Leads s' ∧ s'.pt t = next ∧ ∀ u, s.Apart a u → s'.pt u = s.pt u :=
  LockInv.acquire_of_length _ s hi hd ha rfl hw

end Progress

end Procs

end Nachos
