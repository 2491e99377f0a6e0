import Nachos.Userprog.JoinSafe

/-!
# `ExecUpdate` under any interleaving

`bmsem` is taken at the start of `ExecUpdate` and given back on each of its four ways out, so at
most one thread is inside (`BmsemInv`). `Remove` clears its bit without `bmsem`; a slot that `Find`
yields may have been given back a moment before, but never belongs to a process in use.

A call that returns a slot has created the process in it (`Gained`), unless that process has gone
before the call is over. A thread that is left in a join of the slot can bring this about, as in
`Handshake`; `SlotOk` excludes it. It also bounds the name by the array `filename` of `PCB`, which
`SetFileName` does not.
-/

namespace Nachos

/-- Between `bmsem->P()` and `bmsem->V()`. -/
def Pt.inExec : Pt → Bool
  | .execBody _ | .execMultexP _ _ | .execFork _ _ | .execUnlock _ _ | .execDone _ => true
  | _ => false

/-- The way into `ExecUpdate` is through `bmsem`. -/
theorem Pt.inExec_of_waits {p next : Pt} {r : SemRef} (h : p.waits = some (r, next)) :
    next.inExec = (p.inExec || decide (r = .bmsem)) ∧ (r = .bmsem → p.inExec = false) := by
  cases p <;> simp only [Pt.waits, reduceCtorEq, Option.some.injEq, Prod.mk.injEq] at h <;>
    obtain ⟨rfl, rfl⟩ := h <;> simp [Pt.inExec]

/-- The size of the array `filename` in `PCB`. -/
abbrev filenameSize : ℕ := 32

namespace Procs

/-! ## `bmsem` -/

/-- `bmsem` is 1 and nobody is inside `ExecUpdate`, or it is 0 and one thread is. -/
def BmsemInv (s : Procs) : Prop :=
  (s.sems .bmsem).value = 1 ∧ (∀ t, (s.pt t).inExec = false) ∨
    (s.sems .bmsem).value = 0 ∧ ∃ t, (s.pt t).inExec = true ∧
      ∀ u, (s.pt u).inExec = true → u = t

/-- What a step of thread `t` does to `bmsem`. -/
inductive BmsemStep (s : Procs) (t : ℕ) (s' : Procs) : Prop
  | idle (hsem : (s'.sems .bmsem).value = (s.sems .bmsem).value)
      (hin : ∀ u, (s'.pt u).inExec = (s.pt u).inExec)
  | take (hv : (s.sems .bmsem).value ≠ 0)
      (hsem : (s'.sems .bmsem).value = intPred (s.sems .bmsem).value)
      (hpt : ∀ u, u ≠ t → (s'.pt u).inExec = (s.pt u).inExec) (hin : (s'.pt t).inExec = true)
  | signal (hin : (s.pt t).inExec = true)
      (hsem : (s'.sems .bmsem).value = intSucc (s.sems .bmsem).value)
      (hpt : ∀ u, u ≠ t → (s'.pt u).inExec = (s.pt u).inExec) (hout : (s'.pt t).inExec = false)

theorem BmsemInv.step {s s' : Procs} {t : ℕ} (hb : s.BmsemInv) (h : s.BmsemStep t s') :
    s'.BmsemInv := by
  cases h with
  | idle hsem hin =>
    unfold BmsemInv
    simp only [hsem, hin]
    exact hb
  | take hv hsem hpt hin =>
    obtain ⟨h1, hnone⟩ : (s.sems .bmsem).value = 1 ∧ ∀ u, (s.pt u).inExec = false := by
      rcases hb with h | ⟨h0, -⟩
      · exact h
      · exact absurd h0 hv
    refine Or.inr ⟨by rw [hsem, h1]; rfl, t, hin, fun u hu => ?_⟩
    by_contra hut
    rw [hpt u hut, hnone u] at hu
    cases hu
  | signal hin hsem hpt hout =>
    obtain ⟨h0, huniq⟩ : (s.sems .bmsem).value = 0 ∧ ∀ u, (s.pt u).inExec = true → u = t := by
      rcases hb with ⟨-, hnone⟩ | ⟨h0, w, -, huniq⟩
      · rw [hnone t] at hin; cases hin
      · exact ⟨h0, fun u hu => (huniq u hu).trans (huniq t hin).symm⟩
    refine Or.inl ⟨by rw [hsem, h0]; rfl, fun u => ?_⟩
    by_cases hut : u = t
    · rw [hut, hout]
    · rw [hpt u hut, Bool.eq_false_iff]
      exact fun hu => hut (huniq u hu)

section Classify

variable {s s' : Procs} {t : ℕ}

theorem BmsemStep.idle_goto (p : Pt) (hsem : s'.sems .bmsem = s.sems .bmsem)
    (hpt : s'.pt = Function.update s.pt t p) (hin : p.inExec = (s.pt t).inExec) :
    s.BmsemStep t s' := by
  refine .idle (by rw [hsem]) fun u => ?_
  by_cases hut : u = t
  · rw [hpt, hut, Function.update_self, hin]
  · rw [hpt, Function.update_of_ne hut]

theorem BmsemStep.still (hsem : (s'.sems .bmsem).value = (s.sems .bmsem).value)
    (hpt : s'.pt = s.pt) : s.BmsemStep t s' :=
  .idle hsem fun u => by rw [hpt]

/-- A way out of `ExecUpdate`. -/
theorem BmsemStep.leave {q : Procs} (hin : (s.pt t).inExec = true) (hsem : q.sems = s.sems)
    (hpt : q.pt = s.pt) (pid : ℤ) : s.BmsemStep t ((q.V .bmsem).execReturn t pid) := by
  refine .signal hin ?_ (fun u hu => ?_) ?_
  · rw [execReturn, goto_sems, emit_sems, V_eq rfl, setSem_sems, Function.update_self, hsem]
    rfl
  · rw [execReturn, goto_pt, Function.update_of_ne hu, emit_pt, V_pt, hpt]
  · rw [execReturn, goto_pt, Function.update_self]
    rfl

theorem Act.bmsem {l : Label} (hi : s.TableInv) (h : s.Act l s') : s.BmsemStep l.thread s' := by
  have hV : ∀ (q : Procs) (r : SemRef), r ≠ .bmsem → (q.V r).sems .bmsem = q.sems .bmsem :=
    fun q r hr => V_sems_of_ne q r (Ne.symm hr)
  cases h with
  | joinFault | exitHalt | exitFault | fault | joinPFault | joinReadFault => exact .still rfl rfl
  | @sleep t nm r next hw hq hf hv =>
    refine .still ?_ rfl
    rw [setSem_sems]
    by_cases hr : r = .bmsem
    · subst hr; rw [Function.update_self]
    · rw [Function.update_of_ne (Ne.symm hr)]
  | @take t nm r next hw hq hf hv =>
    obtain ⟨hnext, -⟩ := Pt.inExec_of_waits hw
    show s.BmsemStep t _
    by_cases hr : r = .bmsem
    · subst hr
      refine .take hv ?_ (fun u hu => ?_) ?_
      · rw [goto_sems, setSem_sems, Function.update_self]
      · rw [goto_pt, Function.update_of_ne hu, setSem_pt]
      · rw [goto_pt, Function.update_self, hnext]
        simp
    · refine .idle_goto next ?_ rfl ?_
      · rw [goto_sems, setSem_sems, Function.update_of_ne (Ne.symm hr)]
      · rw [hnext, decide_eq_false hr, Bool.or_false]
  | @execFailed t nm name m hp =>
    exact @BmsemStep.leave s t (s.emit (.printed m)) (by rw [hp]; rfl) rfl rfl (-1)
  | @execDone t nm slot hp => exact @BmsemStep.leave s t s (by rw [hp]; rfl) rfl rfl slot
  | create hp hlt hc =>
    refine .idle_goto _ ?_ rfl (by rw [Label.thread, hp]; rfl)
    simp [newPCB]
  | @fork t nm a slot hp =>
    obtain ⟨-, -, -, hun, -⟩ := hi.creating t a slot (by rw [hp]; rfl)
    refine .idle rfl fun u => ?_
    by_cases hut : u = t
    · subst hut
      simp [execFork, hp, Pt.inExec]
    · by_cases hua : u = a
      · subst hua
        simp [execFork, hut, hun, Pt.inExec]
      · simp [execFork, hut, hua, modify]
  | execUnlock hp | joinInc hp | exitDec hp | exitRelease hp | joinRead hp =>
    exact .idle_goto _ (by simp [hV]) (by rw [goto_pt, V_pt]; rfl)
      (by simp [Label.thread, hp, Pt.inExec])
  | exec hp | joinRejected hp | join hp | exit hp | joinP hp | joinDone hp | exitP hp
  | remove hp =>
    exact .idle_goto _ rfl rfl (by simp [Label.thread, hp, Pt.inExec])

end Classify

theorem bmsemInv_init {s : Procs} (h : s.Init) : s.BmsemInv := by
  obtain ⟨words, rfl⟩ := h
  refine Or.inl ⟨rfl, fun t => ?_⟩
  show (if t = 0 then Pt.user else .unborn).inExec = false
  split_ifs <;> rfl

theorem bmsemInv_reach {s : Procs} (h : Run.Reach step Init s) : s.BmsemInv :=
  (h.inv (fun s => s.TableInv ∧ s.BmsemInv) (fun _ h₀ => ⟨tableInv_init h₀, bmsemInv_init h₀⟩)
    fun _ _ _ hi hs => ⟨hi.1.step hs, hi.2.step ((step_act hi.1 hs).2.bmsem hi.1)⟩).2

/-- Threads that have not finished have different identifiers, and so have `PCB`s in use. -/
def PidsUnique (s : Procs) : Prop :=
  (∀ t u, (s.pt t).active = true → (s.pt u).active = true → s.processID t = s.processID u → t = u) ∧
    ∀ a b, s.Live a → s.Live b → (s.heap a).slot = (s.heap b).slot → a = b

theorem TableInv.pidsUnique {s : Procs} (hi : s.TableInv) : s.PidsUnique := by
  refine ⟨fun t u ht hu h => ?_, fun a b => hi.slot_inj⟩
  obtain ⟨hlt, hidt, -⟩ := hi.running t ht
  obtain ⟨hlu, hidu, -⟩ := hi.running u hu
  exact hi.slot_inj hlt hlu (by rw [← hidt, ← hidu, h])

/-! ## One call -/

/-- `GetFileName`: after `strcpy` has written past the end of the array the text has no end. -/
def getFileName (s : Procs) (a : ℕ) : Option Name :=
  if (s.heap a).filename.length < filenameSize then some (s.heap a).filename else none

/-- `GetID`. -/
def getID (s : Procs) (a : ℕ) : Option ℕ := (s.heap a).thread.map s.processID

/-- The check of `ExecUpdate` that a program does not execute itself. -/
def Accepts (s : Procs) (name threadName : Name) : Prop :=
  (∀ root, s.pcbAt 0 = some root → name ≠ (s.heap root).filename) ∧ name ≠ threadName

/-- The name fits, and nobody is left in a join of the slot that `t` takes. -/
def SlotOk (t : ℕ) (s : Procs) : Label → Prop
  | .exec u name => u = t → ∀ n, name = some n → n.length < filenameSize
  | .run u nm => u = t → ∀ n, s.pt t = .execBody (some n) → s.Accepts n nm →
      ∀ slot : ℕ, s.bm.find.1 = slot → s.NoJoiner slot
  | _ => True

/-- A step of `t` leaves bitmap and pointers alone. -/
def KeepsTable (t : ℕ) (s : Procs) (l : Label) : Prop :=
  l.thread = t → ∀ s', s.step l = some s' → s'.bm = s.bm ∧ s'.pcb = s.pcb

/-- The label is not a call. -/
def Label.goesOn : Label → Bool
  | .run _ _ => true
  | _ => false

/-- `t` calls `ExecUpdate` in `s₀`; the system goes through `ls` to `s`, and the call goes on. -/
structure InCall (s₀ : Procs) (t : ℕ) (name : Option Name) (ls : List Label) (s : Procs) :
    Prop where
  reach : Run.Reach step Init s₀
  run : Run.exec step s₀ (.exec t name :: ls) = some s
  own : ∀ l ∈ ls, l.thread = t → l.goesOn = true

/-- On the way `t` finds the slot free and puts the `PCB` `c` into it. -/
def TakesFree (s₀ : Procs) (t c slot : ℕ) (ls : List Label) : Prop :=
  ∃ ms l rest s₁ s₂, ls = ms ++ l :: rest ∧ Run.exec step s₀ ms = some s₁ ∧
    s₁.step l = some s₂ ∧ s₁.bm.test slot = false ∧ s₂.bm.test slot = true ∧
    s₂.log = s₁.log ++ [.created t c slot]

/-- The slot is the one of a new child of `t` with this name. -/
structure Gained (s : Procs) (t : ℕ) (name : Name) (c slot : ℕ) : Prop where
  marked : s.bm.test slot = true
  pcb : s.pcb slot = some c
  live : s.Live c
  id : s.getID c = some slot
  name : s.getFileName c = some name
  parent : (s.heap c).parentID = s.processID t

/-- What `ExecUpdate` has done when it returns `pid`. -/
def ExecDone (s₀ : Procs) (t : ℕ) (name : Option Name) (ls : List Label) (pid : ℤ) (s : Procs) :
    Prop :=
  (s.sems .bmsem).value = 1 ∧
    (pid = -1 ∧ Run.Admits step (KeepsTable t) s₀ ls ∨
      ∃ n c slot, name = some n ∧ pid = (slot : ℕ) ∧ TakesFree s₀ t c slot ls ∧
        s.Gained t n c slot)

/-- `PCB::Exec` has given the thread of `c` its identifier. -/
def Forked (s : Procs) (c slot : ℕ) : Prop :=
  (s.heap c).thread = some c ∧ s.processID c = slot

/-- Where `t` stands after it has created `c`. -/
def CreatedAt (s : Procs) (c slot : ℕ) (p : Pt) : Prop :=
  p = .execMultexP c slot ∨ p = .execFork c slot ∨
    (p = .execUnlock c slot ∨ p = .execDone slot) ∧ s.Forked c slot

/-- `t` is inside `ExecUpdate` with its new child `c`. -/
structure Made (s : Procs) (t : ℕ) (name : Name) (c slot : ℕ) : Prop where
  meets : ∃ new m, Meets t c slot new s m ∧ .joinCalled t slot ∉ new
  name : (s.heap c).filename = name
  point : s.CreatedAt c slot (s.pt t)

section Steps

variable {s s' : Procs} {l : Label} {t c slot : ℕ} {n : Name}

theorem Made.live (hm : s.Made t n c slot) : s.Live c ∧ (s.heap c).slot = slot ∧
    (s.heap c).creator = t ∧ (s.heap c).parentID = s.processID t := by
  obtain ⟨new, m, hm, hno⟩ := hm.meets
  have haway : m.joiner = .away := by
    have := hm.log.called
    by_contra h
    exact hno (this.mpr h)
  have ho := hm.opened (hm.inv.not_freed (by rw [haway]; exact nofun))
  exact ⟨ho.live, ho.slot, ho.creator, ho.parentID⟩

/-- `filename` is set once. -/
theorem TableInv.filename (hi : s.TableInv) (h : s.step l = some s') (hc : c < s.next) :
    (s'.heap c).filename = (s.heap c).filename := by
  cases step_table h with
  | quiet hq => exact field_of_table hq.table PCB.filename (fun _ => rfl) c
  | create _ _ _ _ he => rw [he]; simp [newPCB, Nat.ne_of_lt hc]
  | fork a _ _ he =>
    rw [he]
    by_cases hca : c = a
    · subst hca; simp [execFork, modify]
    · simp [execFork, modify, hca]
  | remove hpt he =>
    rw [he, (hi.remove_eq hpt).2]
    by_cases hct : c = l.thread
    · subst hct; simp [modify]
    · simp [modify, hct]

/-- Only its creator forks a thread. -/
theorem Forked.kept (hf : s.Forked c slot) (hi : s.TableInv) (h : s.step l = some s')
    (hc : c < s.next)
    (hno : (s.heap c).creator = l.thread → ∀ a sl, s.pt l.thread ≠ .execFork a sl) :
    s'.Forked c slot := by
  obtain ⟨hth, hid⟩ := hf
  unfold Forked
  cases step_table h with
  | quiet hq => rw [thread_of_table hq.table, processID_of_table hq.table]; exact ⟨hth, hid⟩
  | create _ _ _ _ he =>
    rw [he]
    simpa [newPCB, Nat.ne_of_lt hc] using ⟨hth, hid⟩
  | fork a sl hpt he =>
    obtain ⟨-, -, hcr, -, -⟩ := hi.creating l.thread a sl (by rw [hpt]; rfl)
    have hca : c ≠ a := by rintro rfl; exact hno hcr c sl hpt
    rw [he]
    simpa [execFork, modify, goto, hca] using ⟨hth, hid⟩
  | remove hpt he =>
    rw [he, (hi.remove_eq hpt).2]
    by_cases hct : c = l.thread
    · subst hct; simpa [modify] using ⟨hth, hid⟩
    · simpa [modify, hct] using ⟨hth, hid⟩

/-- A step of another thread. -/
theorem Made.other (hm : s.Made t n c slot) (h : s.step l = some s') (hl : l.thread ≠ t) :
    s'.Made t n c slot := by
  obtain ⟨hlive, -, hcr, -⟩ := hm.live
  obtain ⟨new, m, hmeets, hno⟩ := hm.meets
  have hi := hmeets.lock
  have hact := (step_act hi.table h).2
  have hpt : s'.pt t = s.pt t := pt_kept hi.table hact (Ne.symm hl) hmeets.parent.1
  obtain ⟨es, m', hlog, hmeets'⟩ := hmeets.step h (by rintro ec rfl; exact hl rfl)
    (by rintro rfl; exact absurd rfl hl)
  refine ⟨⟨new ++ es, m', hmeets', ?_⟩, (hi.table.filename h hlive.1).trans hm.name, ?_⟩
  · obtain ⟨es', hlog', hes⟩ := hact.events
    obtain rfl : es = es' := List.append_cancel_left (hlog.symm.trans hlog')
    intro hmem
    rcases List.mem_append.mp hmem with hmem | hmem
    · exact hno hmem
    · exact hl (by rw [show l = .join t slot from hes _ hmem]; rfl)
  · rw [hpt]
    refine hm.point.imp_right (Or.imp_right fun ⟨hp, hf⟩ => ⟨hp, hf.kept hi.table h hlive.1 ?_⟩)
    intro he
    exact absurd (he.symm.trans hcr) hl

/-- A step of `t` itself: it goes on to the return. -/
theorem Made.self {nm : Name} (hm : s.Made t n c slot) (h : s.step (.run t nm) = some s') :
    s'.Made t n c slot ∨ s.pt t = .execDone slot ∧ s' = (s.V .bmsem).execReturn t slot := by
  obtain ⟨hlive, -, hcr, -⟩ := hm.live
  obtain ⟨new, m, hmeets, hno⟩ := hm.meets
  have hi := hmeets.lock
  have hact := (step_act hi.table h).2
  obtain ⟨es, m', hlog, hmeets'⟩ := hmeets.step h (by simp) (by simp)
  have hnew : .joinCalled t slot ∉ new ++ es := by
    obtain ⟨es', hlog', hes⟩ := hact.events
    obtain rfl : es = es' := List.append_cancel_left (hlog.symm.trans hlog')
    intro hmem
    rcases List.mem_append.mp hmem with hmem | hmem
    · exact hno hmem
    · cases hes _ hmem
  have hstay : s'.CreatedAt c slot (s'.pt t) → s'.Made t n c slot := fun hp =>
    ⟨⟨_, m', hmeets', hnew⟩, (hi.table.filename h hlive.1).trans hm.name, hp⟩
  rcases hm.point with hp | hp | ⟨hp | hp, hf⟩
  · refine Or.inl (hstay ?_)
    rcases hact.at_wait (show (s.pt t).waits = some (.multex c, .execFork c slot) by rw [hp]; rfl)
      with ⟨rfl, -⟩ | ⟨rfl, -⟩ | ⟨rfl, -⟩
    · exact Or.inl hp
    · exact Or.inl hp
    · exact Or.inr (Or.inl (by simp [Label.thread]))
  all_goals
    obtain ⟨nm', hb⟩ := step_at_block h (by simp [Label.thread, hp])
      (by simp [Label.thread, hp, Pt.waits])
    unfold block at hb
    simp only [Label.thread, hp, Option.some.injEq] at hb
    subst hb
  · refine Or.inl (hstay (Or.inr (Or.inr ⟨Or.inl ?_, ?_, ?_⟩)))
    · simp [execFork]
    · simp [execFork, modify]
    · simp [execFork, goto]
  · have hf' := hf.kept hi.table h hlive.1 fun _ a sl => by rw [Label.thread, hp]; rintro ⟨⟩
    exact Or.inl (hstay (Or.inr (Or.inr ⟨Or.inr (by simp), hf'⟩)))
  · exact Or.inr ⟨hp, rfl⟩

/-- `t` has passed no way out yet, and has not created a process. -/
def Waiting (s : Procs) (t : ℕ) (name : Option Name) : Prop :=
  s.pt t = .execP name ∨ s.pt t = .execBody name

/-- The slot is the one that `Find` yields, after the checks. -/
theorem find_of_created {nm : Name} (hi : s.TableInv)
    (he : s.execBody t (some n) nm = (({ s with bm := s.bm.mark slot }.newPCB t slot n).emit
      (.created t s.next slot)).goto t (.execMultexP s.next slot)) :
    s.Accepts n nm ∧ s.bm.find.1 = slot := by
  have hlog : (s.execBody t (some n) nm).log = s.log ++ [Event.created t s.next slot] := by
    rw [he]; rfl
  unfold execBody at hlog
  simp only [hi.pcbAt_zero] at hlog
  split_ifs at hlog with hsame hneg
  · simp [execReturn] at hlog
  · simp [execReturn] at hlog
  · refine ⟨⟨fun root hr => ?_, fun h => hsame (Or.inr h)⟩, ?_⟩
    · obtain rfl := Option.some.inj (hi.pcbAt_zero.symm.trans hr)
      exact fun h => hsame (Or.inl h)
    · have hev : s.bm.find.1.toNat = slot := by simpa [newPCB] using hlog
      omega

/-- The code between `bmsem->P()` and `PCB::Exec`. -/
theorem body_step {nm : Name} {name : Option Name} (hp : s.pt t = .execBody name) (hi : s.LockInv)
    (h : s.step (.run t nm) = some s') (hok : s.SlotOk t (.run t nm)) :
    (∃ m, s' = ((s.emit (.printed m)).V .bmsem).execReturn t (-1)) ∨ s'.down = s.down ∧
    ∃ n c slot, name = some n ∧ s.bm.test slot = false ∧ s'.bm.test slot = true ∧
      s'.log = s.log ++ [Event.created t c slot] ∧ s'.Made t n c slot := by
  have hact := (step_act hi.table h).2
  have hb : s' = s.execBody t name nm := by
    unfold step at h
    split_ifs at h
    simp only [hp, Pt.waits] at h
    unfold block at h
    simp only [hp, Option.some.injEq] at h
    exact h.symm
  generalize hl : Label.run t nm = l at hact
  cases hact with
  | @execFailed _ _ _ m hp' =>
    cases hl
    exact Or.inl ⟨m, rfl⟩
  | @create _ _ sl n hp' hlt hc =>
    cases hl
    rw [hp, Pt.execBody.injEq] at hp'
    subst hp'
    obtain ⟨hacc, hfind⟩ := find_of_created hi.table hb.symm
    have hn := hok rfl n hp hacc sl hfind
    refine Or.inr ⟨rfl, n, s.next, sl, rfl, hc, ?_, rfl, ?_, ?_, Or.inl ?_⟩
    · show (s.bm.mark sl).test sl = true
      simp [BitMap.test_mark]
    · exact ⟨[], _, meets_created hi h rfl hn, List.not_mem_nil⟩
    · simp [newPCB]
    · simp
  | _ => cases hl <;> simp_all [Pt.waits]

theorem Waiting.self {nm : Name} {name : Option Name} (hw : s.Waiting t name) (hi : s.LockInv)
    (h : s.step (.run t nm) = some s') (hok : s.SlotOk t (.run t nm)) :
    (s'.bm = s.bm ∧ s'.pcb = s.pcb ∧ (s'.Waiting t name ∨
      ∃ m, s' = ((s.emit (.printed m)).V .bmsem).execReturn t (-1) ∧ s.pt t = .execBody name)) ∨
    ∃ n c slot, name = some n ∧ s.bm.test slot = false ∧ s'.bm.test slot = true ∧
      s'.log = s.log ++ [Event.created t c slot] ∧ s'.Made t n c slot := by
  have hact := (step_act hi.table h).2
  rcases hw with hp | hp
  · left
    rcases hact.at_wait (show (s.pt t).waits = some (.bmsem, .execBody name) by rw [hp]; rfl)
      with ⟨rfl, -⟩ | ⟨rfl, -⟩ | ⟨rfl, -⟩
    · exact ⟨rfl, rfl, Or.inl (Or.inl hp)⟩
    · exact ⟨rfl, rfl, Or.inl (Or.inl hp)⟩
    · exact ⟨rfl, rfl, Or.inl (Or.inr (by simp [Label.thread]))⟩
  · rcases body_step hp hi h hok with ⟨m, rfl⟩ | ⟨-, hcreated⟩
    · refine Or.inl ⟨?_, ?_, Or.inr ⟨m, rfl, hp⟩⟩
      · exact bm_of_table (s := s) (by simp [execReturn])
      · exact pcb_of_table (s := s) (by simp [execReturn])
    · exact Or.inr hcreated

/-- A step that returns from `ExecUpdate`. -/
theorem Act.returned {es : List Event} {pid : ℤ} (h : s.Act l s') (hlog : s'.log = s.log ++ es)
    (he : .execReturned t pid ∈ es) : l.thread = t ∧ s'.pt t = .user := by
  obtain ⟨es', hlog', hes⟩ := h.events
  obtain rfl : es = es' := List.append_cancel_left (hlog.symm.trans hlog')
  obtain rfl : t = l.thread := hes _ he
  refine ⟨rfl, ?_⟩
  cases h with
  | execFailed | execDone => simp [Label.thread, execReturn]
  | _ =>
    simp [joinReturn, execFork, newPCB] at hlog
    subst hlog
    simp at he

theorem BmsemInv.back (hb : s.BmsemInv) (h : s.BmsemStep t s') (hin : (s.pt t).inExec = true)
    (hout : (s'.pt t).inExec = false) : (s'.sems .bmsem).value = 1 := by
  cases h with
  | idle _ hsame => rw [hsame, hin] at hout; cases hout
  | take _ _ _ htrue => rw [htrue] at hout; cases hout
  | signal _ hsem _ _ =>
    rcases hb with ⟨-, hnone⟩ | ⟨h0, -⟩
    · rw [hnone t] at hin; cases hin
    · rw [hsem, h0]; rfl

theorem Waiting.other {name : Option Name} (hw : s.Waiting t name) (hi : s.TableInv)
    (h : s.step l = some s') (hl : l.thread ≠ t) : s'.Waiting t name := by
  have hact : (s.pt t).active = true := by rcases hw with hp | hp <;> rw [hp] <;> rfl
  unfold Waiting
  rw [pt_kept hi (step_act hi h).2 (Ne.symm hl) hact]
  exact hw

/-- A thread that has returned makes no further step without a call. -/
theorem stays_back (hi : s.TableInv) (hp : s.pt t = .user) (h : s.step l = some s')
    (hown : l.thread = t → l.goesOn = true) : s'.pt t = .user := by
  by_cases hl : l.thread = t
  · cases l with
    | run u nm =>
      obtain rfl : u = t := hl
      unfold step at h
      split_ifs at h
      simp [hp, Pt.waits, block] at h
    | exec | join | exit => cases hown hl
  · rw [pt_kept hi (step_act hi h).2 (Ne.symm hl) (by rw [hp]; rfl), hp]

theorem Gained.of_made (hm : s.Made t n c slot) (hi : s.TableInv) (hf : s.Forked c slot)
    (hn : n.length < filenameSize) : s.Gained t n c slot := by
  obtain ⟨hlive, hslot, -, hpar⟩ := hm.live
  obtain ⟨-, hpcb, hmark⟩ := hi.own c hlive
  rw [hslot] at hpcb hmark
  refine ⟨hmark, hpcb, hlive, ?_, ?_, hpar⟩
  · rw [getID, hf.1, Option.map_some, hf.2]
  · rw [getFileName, hm.name, if_pos hn]

/-- The return changes nothing of it. -/
theorem Gained.returned (hg : s.Gained t n c slot) (pid : ℤ) :
    ((s.V .bmsem).execReturn t pid).Gained t n c slot := by
  have htable : ((s.V .bmsem).execReturn t pid).table = s.table := by simp [execReturn]
  have hheap : ((s.V .bmsem).execReturn t pid).heap = s.heap := by simp [execReturn]
  refine ⟨?_, ?_, (live_of_table htable c).mpr hg.live, ?_, ?_, ?_⟩
  · rw [bm_of_table htable]; exact hg.marked
  · rw [pcb_of_table htable]; exact hg.pcb
  · rw [getID, hheap, processID_of_table htable]; exact hg.id
  · rw [getFileName, hheap]; exact hg.name
  · rw [hheap, processID_of_table htable]; exact hg.parent

end Steps

section Runs

variable {s s' : Procs} {ls : List Label} {t c slot : ℕ} {n : Name}

theorem back_run (hi : s.TableInv) (hp : s.pt t = .user)
    (hown : ∀ l ∈ ls, l.thread = t → l.goesOn = true) (h : Run.exec step s ls = some s') :
    s'.pt t = .user := by
  induction ls generalizing s with
  | nil =>
    obtain rfl := Option.some.inj h
    exact hp
  | cons l ls ih =>
    obtain ⟨s₁, h₁, h₂⟩ := Run.exec_cons_eq_some.mp h
    exact ih (hi.step h₁) (stays_back hi hp h₁ (hown l List.mem_cons_self))
      (fun l' hl' => hown l' (List.mem_cons_of_mem l hl')) h₂

theorem Made.run (hm : s.Made t n c slot) (hown : ∀ l ∈ ls, l.thread = t → l.goesOn = true)
    (h : Run.exec step s ls = some s') : s'.Made t n c slot ∨ s'.pt t = .user := by
  induction ls generalizing s with
  | nil =>
    obtain rfl := Option.some.inj h
    exact Or.inl hm
  | cons l ls ih =>
    obtain ⟨s₁, h₁, h₂⟩ := Run.exec_cons_eq_some.mp h
    have hi : s.TableInv := by
      obtain ⟨_, _, hmeets, -⟩ := hm.meets
      exact hmeets.lock.table
    have hown' : ∀ l' ∈ ls, l'.thread = t → l'.goesOn = true := fun l' hl' =>
      hown l' (List.mem_cons_of_mem l hl')
    by_cases hl : l.thread = t
    · cases l with
      | run u nm =>
        obtain rfl : u = t := hl
        rcases hm.self h₁ with hm₁ | ⟨-, rfl⟩
        · exact ih hm₁ hown' h₂
        · exact Or.inr (back_run (hi.step h₁) (by simp [execReturn]) hown' h₂)
      | exec | join | exit => cases hown _ List.mem_cons_self hl
    · exact ih (hm.other h₁ hl) hown' h₂

/-- Up to the creation of the process, or to the return. -/
theorem Waiting.run {name : Option Name} (hw : s.Waiting t name) (hi : s.LockInv)
    (hown : ∀ l ∈ ls, l.thread = t → l.goesOn = true) (hok : Run.Admits step (SlotOk t) s ls)
    (h : Run.exec step s ls = some s') :
    s'.Waiting t name ∧ Run.Admits step (KeepsTable t) s ls ∨ s'.pt t = .user ∨
      ∃ n c slot, name = some n ∧ TakesFree s t c slot ls ∧ s'.Made t n c slot := by
  induction ls generalizing s with
  | nil =>
    obtain rfl := Option.some.inj h
    exact Or.inl ⟨hw, trivial⟩
  | cons l ls ih =>
    obtain ⟨s₁, h₁, h₂⟩ := Run.exec_cons_eq_some.mp h
    have hown' : ∀ l' ∈ ls, l'.thread = t → l'.goesOn = true := fun l' hl' =>
      hown l' (List.mem_cons_of_mem l hl')
    have hstep : s₁.Waiting t name → KeepsTable t s l →
        s'.Waiting t name ∧ Run.Admits step (KeepsTable t) s (l :: ls) ∨ s'.pt t = .user ∨
          ∃ n c slot, name = some n ∧ TakesFree s t c slot (l :: ls) ∧ s'.Made t n c slot := by
      intro hw₁ hkeep
      rcases ih hw₁ (hi.step h₁) hown' (hok.2 s₁ h₁) h₂ with
        ⟨hw', hk⟩ | hback | ⟨n, c, sl, hn, hf, hm⟩
      · refine Or.inl ⟨hw', hkeep, fun s₂ h₂ => ?_⟩
        obtain rfl := Option.some.inj (h₁.symm.trans h₂)
        exact hk
      · exact Or.inr (Or.inl hback)
      · obtain ⟨ms, l', rest, s₂, s₃, rfl, h₃, h₄⟩ := hf
        exact Or.inr (Or.inr ⟨n, c, sl, hn,
          ⟨l :: ms, l', rest, s₂, s₃, rfl, Run.exec_cons_eq_some.mpr ⟨s₁, h₁, h₃⟩, h₄⟩, hm⟩)
    by_cases hl : l.thread = t
    · cases l with
      | run u nm =>
        obtain rfl : u = t := hl
        rcases hw.self hi h₁ hok.1 with
          ⟨hbm, hpcb, hw₁ | ⟨m, rfl, -⟩⟩ | ⟨n, c, sl, hn, h3, h4, h5, hm⟩
        · refine hstep hw₁ fun _ s₂ h₂ => ?_
          obtain rfl := Option.some.inj (h₁.symm.trans h₂)
          exact ⟨hbm, hpcb⟩
        · exact Or.inr (Or.inl (back_run (hi.step h₁).table (by simp [execReturn]) hown' h₂))
        · rcases hm.run hown' h₂ with hm' | hback
          · exact Or.inr (Or.inr ⟨n, c, sl, hn, ⟨[], _, ls, s, s₁, rfl, rfl, h₁, h3, h4, h5⟩, hm'⟩)
          · exact Or.inr (Or.inl hback)
      | exec | join | exit => cases hown _ List.mem_cons_self hl
    · exact hstep (hw.other hi.table h₁ hl) fun h => absurd h hl

theorem InCall.reached {s₀ : Procs} {name : Option Name} (hc : InCall s₀ t name ls s) :
    Run.Reach step Init s := by
  obtain ⟨s₁, ms, h₁, h₂⟩ := hc.reach
  exact ⟨s₁, ms ++ .exec t name :: ls, h₁, Run.exec_append.mpr ⟨s₀, h₂, hc.run⟩⟩

theorem InCall.waiting {s₀ : Procs} {name : Option Name} (hc : InCall s₀ t name ls s) :
    ∃ s₁, s₀.step (.exec t name) = some s₁ ∧ s₁.Waiting t name ∧ s₁.LockInv ∧
      KeepsTable t s₀ (.exec t name) ∧ Run.exec step s₁ ls = some s := by
  obtain ⟨s₁, h₁, h₂⟩ := Run.exec_cons_eq_some.mp hc.run
  have hs₁ : s₁ = s₀.goto t (.execP name) := by
    unfold step at h₁
    split_ifs at h₁
    simp only at h₁
    split_ifs at h₁
    exact (Option.some.inj h₁).symm
  refine ⟨s₁, h₁, Or.inl (by rw [hs₁]; simp), (lockInv_reach hc.reach).step h₁, ?_, h₂⟩
  intro _ s' hs'
  obtain rfl := Option.some.inj (h₁.symm.trans hs')
  rw [hs₁]
  exact ⟨rfl, rfl⟩

/-- `ExecUpdate` from `bmsem->P()` to its return. -/
theorem InCall.returns {s₀ : Procs} {name : Option Name} (hc : InCall s₀ t name ls s) {nm : Name}
    {es : List Event} {pid : ℤ}
    (hok : Run.Admits step (SlotOk t) s₀ (.exec t name :: ls ++ [Label.run t nm]))
    (hs : s.step (.run t nm) = some s') (hlog : s'.log = s.log ++ es)
    (he : .execReturned t pid ∈ es) :
    ExecDone s₀ t name (.exec t name :: ls ++ [Label.run t nm]) pid s' := by
  have hi := lockInv_reach hc.reached
  have hact := (step_act hi.table hs).2
  have hback := (hact.returned hlog he).2
  have hone : (s.pt t).inExec = true → (s'.sems .bmsem).value = 1 := fun hin =>
    (bmsemInv_reach hc.reached).back (hact.bmsem hi.table) hin (by rw [Label.thread, hback]; rfl)
  obtain ⟨hok, hlast⟩ := hok.of_concat
  have hfit := hok.1 rfl
  obtain ⟨s₁, h₁, hw, hi₁, hkeep, hrun⟩ := hc.waiting
  rcases hw.run hi₁ hc.own (hok.2 s₁ h₁) hrun with ⟨hw', hkeeps⟩ | huser | ⟨n, c, sl, hn, hf, hm⟩
  · rcases hw'.self hi hs (hlast s hc.run) with
      ⟨hbm, hpcb, hw'' | ⟨m, rfl, hp⟩⟩ | ⟨n, c, sl, -, -, -, -, hm⟩
    · rcases hw'' with hp | hp <;> rw [hback] at hp <;> cases hp
    · refine ⟨hone (by rw [hp]; rfl), Or.inl ⟨?_, ?_⟩⟩
      · simp only [execReturn, goto_log, emit_log, V_log, List.append_assoc,
          List.append_cancel_left_eq] at hlog
        subst hlog
        simpa using he
      · have hall : Run.Admits step (KeepsTable t) s₀ (.exec t name :: ls) :=
          ⟨hkeep, fun s₂ h₂ => by
            obtain rfl := Option.some.inj (h₁.symm.trans h₂)
            exact hkeeps⟩
        refine hall.concat hc.run fun _ s₂ h₂ => ?_
        obtain rfl := Option.some.inj (hs.symm.trans h₂)
        exact ⟨hbm, hpcb⟩
    · rcases hm.point with hp | hp | ⟨hp | hp, -⟩ <;> rw [hback] at hp <;> cases hp
  · unfold step at hs
    split_ifs at hs
    simp [huser, Pt.waits, block] at hs
  · rcases hm.self hs with hm' | ⟨hp, rfl⟩
    · rcases hm'.point with hp | hp | ⟨hp | hp, -⟩ <;> rw [hback] at hp <;> cases hp
    · have hforked : s.Forked c sl := by
        rcases hm.point with h | h | ⟨-, h⟩
        · rw [hp] at h; cases h
        · rw [hp] at h; cases h
        · exact h
      refine ⟨hone (by rw [hp]; rfl), Or.inr ⟨n, c, sl, hn, ?_, ?_, ?_⟩⟩
      · simp only [execReturn, goto_log, emit_log, V_log, List.append_cancel_left_eq] at hlog
        subst hlog
        simpa using he
      · obtain ⟨ms, l, rest, s₂, s₃, rfl, h₃, h₄⟩ := hf
        exact ⟨.exec t name :: ms, l, rest ++ [Label.run t nm], s₂, s₃, by simp,
          Run.exec_cons_eq_some.mpr ⟨s₁, h₁, h₃⟩, h₄⟩
      · exact (Gained.of_made hm hi.table hforked (hfit n hn)).returned sl

/-! ### The way back -/

theorem Made.lead (hm : s.Made t n c slot) (h : s.Leads s') :
    s'.Made t n c slot ∨ s'.pt t = .user := by
  obtain ⟨ls, hl, he, -⟩ := h
  refine hm.run (fun l hmem _ => ?_) he
  obtain ⟨u, nm, rfl⟩ := hl l hmem
  rfl

/-- The scheduler can let the call return. -/
def CanReturn (s : Procs) (t : ℕ) : Prop := ∃ s', s.Leads s' ∧ s'.pt t = .user

theorem CanReturn.of_leads (h : s.Leads s') (hc : s'.CanReturn t) : s.CanReturn t := by
  obtain ⟨s₂, h₂, hp⟩ := hc
  exact ⟨s₂, h.trans h₂, hp⟩

theorem Made.canReturn_unlock (hm : s.Made t n c slot) (hd : s.down = none)
    (hp : s.pt t = .execUnlock c slot ∨ s.pt t = .execDone slot) : s.CanReturn t := by
  have hdone : ∀ q : Procs, q.down = none → q.pt t = .execDone slot → q.CanReturn t := by
    intro q hd hp
    refine ⟨_, .of_step ((step_block hd (by rw [hp]; rfl)).trans (by unfold block; rw [hp])) ?_, ?_⟩
    · show (q.V .bmsem).down = none
      rw [V_down rfl, hd]
    · simp [execReturn]
  rcases hp with hp | hp
  · have hs : s.step (.run t []) = some ((s.V (.multex c)).goto t (.execDone slot)) := by
      rw [step_block hd (by rw [hp]; rfl)]; unfold block; rw [hp]
    have hd' : ((s.V (.multex c)).goto t (.execDone slot)).down = none := by
      show (s.V _).down = none
      rw [V_down (show s.freed (.multex c) = false from hm.live.1.2), hd]
    exact .of_leads (.of_step hs hd') (hdone _ hd' (by simp))
  · exact hdone s hd hp

theorem Made.canReturn (hm : s.Made t n c slot) (hd : s.down = none) : s.CanReturn t := by
  have hfork : ∀ q : Procs, q.Made t n c slot → q.down = none → q.pt t = .execFork c slot →
      q.CanReturn t := by
    intro q hm hd hp
    have hs : q.step (.run t []) = some (q.execFork t c slot) := by
      rw [step_block hd (by rw [hp]; rfl)]; unfold block; rw [hp]
    have hp' : (q.execFork t c slot).pt t = .execUnlock c slot := by simp [execFork]
    rcases hm.self hs with hm' | ⟨hno, -⟩
    · exact .of_leads (.of_step hs hd) (hm'.canReturn_unlock hd (Or.inl hp'))
    · rw [hp] at hno; cases hno
  rcases hm.point with hp | hp | ⟨hp, -⟩
  · obtain ⟨_, _, hmeets, -⟩ := hm.meets
    obtain ⟨s₁, h₁, hp₁, -⟩ := hmeets.lock.acquire hd hm.live.1
      (show (s.pt t).waits = some (.multex c, .execFork c slot) by rw [hp]; rfl)
    rcases hm.lead h₁ with hm₁ | huser
    · exact .of_leads h₁ (hfork s₁ hm₁ h₁.down hp₁)
    · rw [hp₁] at huser; cases huser
  · exact hfork s hm hd hp
  · exact hm.canReturn_unlock hd hp

/-- Whoever is inside can give `bmsem` back. -/
theorem InCall.canReturn {s₀ : Procs} {name : Option Name} (hc : InCall s₀ t name ls s)
    (hok : Run.Admits step (SlotOk t) s₀ (.exec t name :: ls)) (hd : s.down = none)
    (hin : (s.pt t).inExec = true) (hlast : s.SlotOk t (.run t [])) : s.CanReturn t := by
  have hi := lockInv_reach hc.reached
  obtain ⟨s₁, h₁, hw, hi₁, -, hrun⟩ := hc.waiting
  rcases hw.run hi₁ hc.own (hok.2 s₁ h₁) hrun with ⟨hw', -⟩ | huser | ⟨n, c, sl, -, -, hm⟩
  · rcases hw' with hp | hp
    · rw [hp] at hin; cases hin
    · have hs : s.step (.run t []) = some (s.execBody t name []) := by
        rw [step_block hd (by rw [hp]; rfl)]; unfold block; rw [hp]
      rcases body_step hp hi hs hlast with ⟨m, he⟩ | ⟨hdown, n, c, sl, -, -, -, -, hm⟩
      · rw [he] at hs
        refine ⟨_, .of_step hs ?_, by simp [execReturn]⟩
        show (Procs.V _ _).down = none
        rw [V_down rfl]
        exact hd
      · rw [hd] at hdown
        exact .of_leads (.of_step hs hdown) (hm.canReturn hdown)
  · rw [huser] at hin; cases hin
  · exact hm.canReturn hd

/-- **`ExecUpdate` under any interleaving.** At most one thread is inside, and no two processes have
the same identifier. A call for which `SlotOk` holds gives `bmsem` back on every way out, and has
either changed nothing or put a new child into a slot that it found free. -/
theorem exec_update_exclusive (s : Procs) :
    (Run.Reach step Init s → s.BmsemInv ∧ s.PidsUnique) ∧
    (∀ s₀ t name ls nm s' es pid, InCall s₀ t name ls s →
      Run.Admits step (SlotOk t) s₀ (.exec t name :: ls ++ [.run t nm]) →
      s.step (.run t nm) = some s' → s'.log = s.log ++ es → .execReturned t pid ∈ es →
      ExecDone s₀ t name (.exec t name :: ls ++ [.run t nm]) pid s') ∧
    ∀ s₀ t name ls, InCall s₀ t name ls s →
      Run.Admits step (SlotOk t) s₀ (.exec t name :: ls) → s.down = none →
      (s.pt t).inExec = true → s.SlotOk t (.run t []) → s.CanReturn t :=
  ⟨fun hr => ⟨bmsemInv_reach hr, (tableInv_reach hr).pidsUnique⟩,
    fun _ _ _ _ _ _ _ _ hc hok hs hlog he => hc.returns hok hs hlog he,
    fun _ _ _ _ hc hok hd hin hlast => hc.canReturn hok hd hin hlast⟩

end Runs

/-- The root has joined process 2 twice and is before its second look at the slot; process 2 is
removed. -/
def staleRun : List Label :=
  execRun 0 65 ++ execRun 0 66 ++ .exit 2 0 :: runs 2 5 ++ .join 0 2 :: runs 0 6 ++
    .join 0 2 :: runs 0 1 ++ runs 2 2

/-- Process 1 gets slot 2 for process 3, which exits; the root's old join lets it go. -/
def overtakenRun : List Label :=
  runs 1 5 ++ .exit 3 7 :: runs 3 5 ++ runs 0 4 ++ runs 3 2

/-- A name of 32 bytes. -/
def longName : Name := List.replicate filenameSize 65

/-- Process 1 is told 2 when slot 2 is free again, and the root gets a child whose name has no
end. -/
theorem exec_returns_free_slot :
    (∃ s₀ s s' : Procs, InCall s₀ 1 (some [67]) overtakenRun s ∧ s.step (.run 1 []) = some s' ∧
      s'.log = s.log ++ [.execReturned 1 2] ∧ s'.bm.test 2 = false) ∧
    ∃ s₀ s s' : Procs, InCall s₀ 0 (some longName) (runs 0 5) s ∧ s.step (.run 0 []) = some s' ∧
      s'.log = s.log ++ [.execReturned 0 1] ∧ s'.pcb 1 = some 1 ∧ s'.getFileName 1 = none := by
  constructor
  · have h : (Run.exec step (initial fun _ => 0) staleRun).any fun s₀ =>
        (Run.exec step s₀ (.exec 1 (some [67]) :: overtakenRun)).any fun s =>
          (s.step (.run 1 [])).any fun s' =>
            decide (s'.log = s.log ++ [.execReturned 1 2] ∧ s'.bm.test 2 = false) := by
      decide +kernel
    obtain ⟨s₀, h₀, h⟩ := (Option.any_eq_true _ _).mp h
    obtain ⟨s, hs, h⟩ := (Option.any_eq_true _ _).mp h
    obtain ⟨s', hs', h⟩ := (Option.any_eq_true _ _).mp h
    exact ⟨s₀, s, s', ⟨⟨_, _, ⟨_, rfl⟩, h₀⟩, hs, by decide⟩, hs', of_decide_eq_true h⟩
  · have h : (Run.exec step (initial fun _ => 0) (.exec 0 (some longName) :: runs 0 5)).any
        fun s => (s.step (.run 0 [])).any fun s' => decide (s'.log = s.log ++ [.execReturned 0 1] ∧
          s'.pcb 1 = some 1 ∧ s'.getFileName 1 = none) := by
      decide +kernel
    obtain ⟨s, hs, h⟩ := (Option.any_eq_true _ _).mp h
    obtain ⟨s', hs', h⟩ := (Option.any_eq_true _ _).mp h
    exact ⟨_, s, s', ⟨reach_initial _, hs, by decide⟩, hs', of_decide_eq_true h⟩

/-- There is only the root when a process is created, and the names fit. -/
def FirstChild (s : Procs) : Label → Bool
  | .exec _ name => name.all fun n => decide (n.length < filenameSize)
  | .run _ _ =>
    match s.pt 0 with
    | .execBody _ => decide (s.next = 1)
    | _ => true
  | _ => true

theorem slotOk_of_firstChild {s : Procs} {l : Label} (hr : Run.Reach step Init s)
    (h : s.FirstChild l = true) : s.SlotOk 0 l := by
  cases l with
  | exec u name =>
    rintro - n rfl
    exact of_decide_eq_true h
  | run u nm =>
    rintro - n hp - slot - u
    rw [FirstChild, hp] at h
    have hnext := of_decide_eq_true h
    rcases Nat.eq_zero_or_pos u with rfl | hu
    · rw [hp]; exact ⟨nofun, nofun, nofun, nofun⟩
    · rw [(lockInv_reach hr).table.unborn u (by omega)]; exact ⟨nofun, nofun, nofun, nofun⟩
  | join | exit => trivial

/-- The root's first child gets slot 1. -/
theorem exec_update_exclusive_root :
    ∃ s s' : Procs, s'.BmsemInv ∧ s.CanReturn 0 ∧
      ExecDone (initial fun _ => 0) 0 (some [65])
        (.exec 0 (some [65]) :: runs 0 5 ++ [.run 0 []]) 1 s' := by
  have h : (Run.exec step (initial fun _ => 0) (.exec 0 (some [65]) :: runs 0 5)).any fun s =>
      decide (s.down = none ∧ (s.pt 0).inExec = true) &&
        (s.step (.run 0 [])).any fun s' => decide (s'.log = s.log ++ [.execReturned 0 1]) := by
    decide +kernel
  have hadm : Run.Admits step (fun s l => s.FirstChild l = true) (initial fun _ => 0)
      (.exec 0 (some [65]) :: runs 0 5 ++ [.run 0 []]) := Run.admits_of_admitted (by decide +kernel)
  have hok := hadm.imp_of_reach (fun _ _ => slotOk_of_firstChild) (reach_initial _)
  obtain ⟨s, hs, h⟩ := (Option.any_eq_true _ _).mp h
  obtain ⟨hup, h⟩ := Bool.and_eq_true_iff.mp h
  obtain ⟨s', hs', hlog⟩ := (Option.any_eq_true _ _).mp h
  obtain ⟨hd, hin⟩ := of_decide_eq_true hup
  have hc : InCall (initial fun _ => 0) 0 (some [65]) (runs 0 5) s :=
    ⟨reach_initial _, hs, by decide⟩
  have hr : Run.Reach step Init s' :=
    ⟨_, .exec 0 (some [65]) :: runs 0 5 ++ [.run 0 []], ⟨_, rfl⟩, Run.exec_concat.mpr ⟨s, hs, hs'⟩⟩
  exact ⟨s, s', ((exec_update_exclusive s').1 hr).1,
    (exec_update_exclusive s).2.2 _ _ _ _ hc hok.of_concat.1 hd hin (hok.of_concat.2 s hs),
    (exec_update_exclusive s).2.1 _ _ _ _ _ _ _ _ hc hok hs' (of_decide_eq_true hlog)
      List.mem_cons_self⟩

end Procs

end Nachos
