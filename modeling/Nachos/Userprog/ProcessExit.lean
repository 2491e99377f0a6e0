import Nachos.Userprog.JoinSafe
import Nachos.Userprog.Processes

/-!
# What `SC_Exit` does

`SC_Exit` returns to the user program when the exit status is not 0. With the status 0 the thread
executes no further user instruction, and once its parent has joined it, `Remove` gives back its
slot and its frames.

The handshake of `Handshake` ends when `JoinUpdate` returns. From then on `Released` holds: the
child can get through `ExitWait`, and nothing that its parent does later can hold it up. `Phase` is
the one or the other.
-/

namespace Nachos

/-- `JoinUpdate` of `p` for slot `id` returns. -/
def Event.returnsTo (p : ℕ) (id : ℤ) : Event → Bool
  | .joinReturned t i _ => decide (t = p ∧ i = id)
  | _ => false

theorem Event.returnsTo_iff {p : ℕ} {id : ℤ} {e : Event} :
    e.returnsTo p id = true ↔ ∃ v, e = .joinReturned p id v := by
  constructor
  · cases e with
    | joinReturned t i v =>
      intro h
      obtain ⟨rfl, rfl⟩ := of_decide_eq_true h
      exact ⟨v, rfl⟩
    | _ => exact nofun
  · rintro ⟨v, rfl⟩
    exact decide_eq_true ⟨rfl, rfl⟩

namespace Procs

/-! ## After the join -/

/-- `exitsem` of the `PCB` `c` in slot `id` has its signal, and nobody can come to signal it again:
that takes a way through `joinsem`. -/
structure LetGo (c id : ℕ) (s : Procs) : Prop where
  signalled : 0 < (s.sems (.exitsem c)).value ∧ (s.sems (.exitsem c)).queue = []
  joinsem : (s.sems (.joinsem c)).value = 0
  unread : ∀ u, s.pt u ≠ .joinRead id

/-- The child `c` in slot `id` has been let go by its parent. -/
structure Released (c id : ℕ) (s : Procs) : Prop where
  lock : s.LockInv
  place : s.pt c = .exitP ∨ s.pt c = .exitWait c ∨ s.pt c = .exitRemove ∨ s.pt c = .dead
  letGo : s.pt c = .exitP ∨ s.pt c = .exitWait c → LetGo c id s
  slot : s.pt c ≠ .dead → s.processID c = id

section Steps

variable {p c id : ℕ} {s s' : Procs} {l : Label} {m : Rendezvous.State ℤ} {new : List Event}

/-- The step that ends a thread clears its slot. -/
theorem dead_step (hi : s.TableInv) (h : s.step l = some s') (hne : s.pt c ≠ .dead)
    (hd : s'.pt c = .dead) : c = l.thread ∧ s.pt c = .exitRemove ∧
      s'.bm = s.bm.clear (s.processID c) := by
  have hc : c = l.thread := by
    by_contra hc
    rcases (step_act hi h).2.pt_others hc with hpt | ⟨-, -, hpt⟩
    · exact hne (hpt ▸ hd)
    · rw [hd] at hpt
      cases hpt
  subst hc
  cases step_table h with
  | quiet hq =>
    have hact := hq.move.active
    rw [hd] at hact
    cases hact
  | create slot name _ _ he => rw [he] at hd; simp at hd
  | fork a slot hpt he => rw [he] at hd; simp [execFork] at hd
  | remove hpt he => exact ⟨rfl, hpt, by rw [he, (hi.remove_eq hpt).2]; rfl⟩

/-- A thread comes to the read of the exit code through `joinsem`. -/
theorem Act.to_joinRead (h : s.Act l s') {id : ℤ} (hp : s'.pt l.thread = .joinRead id) :
    s.pt l.thread = .joinRead id ∨ ∃ a, s.pt l.thread = .joinWait id a ∧
      (s.sems (.joinsem a)).value ≠ 0 ∧ s.freed (.joinsem a) = false := by
  cases h with
  | @take t nm r next hw hq hf hv =>
    simp only [Label.thread] at hp ⊢
    rw [goto_pt, Function.update_self] at hp
    cases hpt : s.pt t <;> rw [hpt] at hw <;> simp only [Pt.waits, reduceCtorEq,
      Option.some.injEq, Prod.mk.injEq] at hw <;> obtain ⟨rfl, rfl⟩ := hw <;> cases hp
    exact Or.inr ⟨_, rfl, hv, hf⟩
  | joinFault | exitHalt | exitFault | fault | sleep | joinPFault | joinReadFault =>
    exact Or.inl hp
  | _ => simp [Label.thread, joinReturn, execReturn, execFork] at hp

/-- Nothing that the others do changes this. -/
theorem LetGo.kept (hg : LetGo c id s) (hi : s.LockInv) (hc : s.Live c)
    (hslot : (s.heap c).slot = id) (h : s.Act l s') (ht : l.thread ≠ c) : LetGo c id s' := by
  constructor
  · rcases h.exitsem hc.1 with hsem | hwait | ⟨i, hread, hpcb⟩
    · rw [hsem]
      exact hg.signalled
    · -- only `c` itself waits there
      obtain ⟨next, hw⟩ := Pt.waits_of_waitsFor hwait
      have hpoint := hi.points l.thread
      cases hp : s.pt l.thread <;> rw [hp] at hw hpoint <;> simp [Pt.waits] at hw
      exact absurd (hpoint.symm.trans hw.1) ht
    · obtain ⟨-, hi⟩ := hi.table.pcbAt_eq hpcb
      rw [← hi, hslot] at hread
      exact absurd hread (hg.unread l.thread)
  · rcases h.joinsem hc.1 with hsem | hwait | ⟨hlc, -⟩
    · rw [hsem]
      exact hg.joinsem
    · obtain ⟨next, hw⟩ := Pt.waits_of_waitsFor hwait
      rcases h.at_wait hw with ⟨rfl, -⟩ | ⟨rfl, -⟩ | ⟨-, hv, -⟩
      · exact hg.joinsem
      · rw [setSem_sems, Function.update_self]
        exact hg.joinsem
      · exact absurd hg.joinsem hv
    · exact absurd hlc ht
  · intro u hu
    by_cases hul : u = l.thread
    · subst hul
      rcases h.to_joinRead hu with hread | ⟨a, hwait, hv, hf⟩
      · exact hg.unread _ hread
      · have hpoint := hi.points l.thread
        rw [hwait] at hpoint
        have hslot' : (s.heap a).slot = id := by exact_mod_cast hpoint.2
        obtain rfl := hi.table.slot_inj ⟨hpoint.1, hf⟩ hc (hslot'.trans hslot.symm)
        exact hv hg.joinsem
    · rcases h.pt_others hul with hpt | ⟨-, -, hpt⟩
      · exact hg.unread u (hpt ▸ hu)
      · rw [hpt] at hu
        cases hu

theorem released_dead (hi : s.LockInv) (hd : s.pt c = .dead) : Released c id s := by
  refine ⟨hi, Or.inr (Or.inr (Or.inr hd)), fun h => ?_, fun h => absurd hd h⟩
  rw [hd] at h
  rcases h with h | h <;> cases h

/-- `Remove` ends the thread. -/
theorem remove_step (hi : s.TableInv) (h : s.step l = some s') (hp : s.pt l.thread = .exitRemove) :
    s'.pt l.thread = .dead := by
  obtain ⟨nm, hb⟩ := step_at_block h (by rw [hp]; exact nofun) (by rw [hp]; rfl)
  unfold block at hb
  rw [hp, Option.some.injEq, (hi.remove_eq hp).2] at hb
  rw [← hb, goto_pt, Function.update_self]

/-- The child goes on. -/
theorem Released.own (hr : Released c id s) (h : s.step l = some s') (ht : l.thread = c) :
    Released c id s' := by
  have hactive := step_active h
  rw [ht] at hactive
  have hslot : s'.processID c = id := by
    rw [hr.lock.table.processID_kept h hactive]
    refine hr.slot ?_
    rintro e
    rw [e] at hactive
    cases hactive
  have hlock := hr.lock.step h
  rcases hr.place with hp | hp | hp | hp
  · obtain ⟨nm, hb⟩ := step_at_block h (by rw [ht, hp]; exact nofun) (by rw [ht, hp]; rfl)
    unfold block at hb
    rw [ht, hp, Option.some.injEq, hr.lock.table.pcbAt_self (by rw [hp]; rfl)] at hb
    have hp' : s'.pt c = .exitWait c := by rw [← hb, goto_pt, Function.update_self]
    refine ⟨hlock, Or.inr (Or.inl hp'), fun _ => ?_, fun _ => hslot⟩
    obtain ⟨hsignalled, hjoin, hread⟩ := hr.letGo (Or.inl hp)
    rw [← hb]
    refine ⟨hsignalled, hjoin, fun u => ?_⟩
    rw [goto_pt]
    by_cases hu : u = c
    · rw [hu, Function.update_self]
      exact nofun
    · rw [Function.update_of_ne hu]
      exact hread u
  · obtain ⟨hv, -⟩ := (hr.letGo (Or.inr hp)).signalled
    rcases (step_act hr.lock.table h).2.at_wait (by rw [ht, hp]; rfl) with
      ⟨-, hf⟩ | ⟨-, hz, -⟩ | ⟨he, -⟩
    · rw [show s.freed (.exitsem c) = false from (hr.lock.table.running c hactive).1.2] at hf
      cases hf
    · exact absurd hz hv.ne'
    · have hp' : s'.pt c = .exitRemove := by rw [he, ht, goto_pt, Function.update_self]
      refine ⟨hlock, Or.inr (Or.inr (Or.inl hp')), fun h => ?_, fun _ => hslot⟩
      rw [hp'] at h
      rcases h with h | h <;> cases h
  · exact released_dead hlock (ht ▸ remove_step hr.lock.table h (ht ▸ hp))
  · rw [hp] at hactive
    cases hactive

/-- Nothing that the others do holds up the child. -/
theorem Released.other (hr : Released c id s) (h : s.step l = some s') (ht : l.thread ≠ c) :
    Released c id s' := by
  have hact := (step_act hr.lock.table h).2
  have hlock := hr.lock.step h
  by_cases hd : s.pt c = .dead
  · exact released_dead hlock (dead_kept hr.lock.table h hd)
  have hactive : (s.pt c).active = true := by
    rcases hr.place with hp | hp | hp | hp
    · rw [hp]; rfl
    · rw [hp]; rfl
    · rw [hp]; rfl
    · exact absurd hp hd
  have hpt := pt_kept hr.lock.table hact (Ne.symm ht) hactive
  obtain ⟨hlive, hid, -⟩ := hr.lock.table.running c hactive
  refine ⟨hlock, hpt ▸ hr.place, fun h => ?_, fun _ => ?_⟩
  · exact (hr.letGo (hpt ▸ h)).kept hr.lock hlive (hid.symm.trans (hr.slot hd)) hact ht
  · rw [hr.lock.table.processID_kept h hactive]
    exact hr.slot hd

theorem Released.step (hr : Released c id s) (h : s.step l = some s') : Released c id s' := by
  by_cases ht : l.thread = c
  · exact hr.own h ht
  · exact hr.other h ht

/-- The child can end. -/
theorem Released.ends (hr : Released c id s) (hd : s.down = none) :
    ∃ s', s.Leads s' ∧ s'.pt c = .dead := by
  have hremove : ∀ s : Procs, Released c id s → s.down = none → s.pt c = .exitRemove →
      ∃ s', s.Leads s' ∧ s'.pt c = .dead := by
    intro s hr hd hp
    have hs : s.step (.run c []) = some (s.remove c) := by
      rw [step_block hd (by rw [hp]; rfl)]
      unfold block
      rw [hp]
    refine ⟨_, .of_step hs ?_, remove_step hr.lock.table hs hp⟩
    rw [(hr.lock.table.remove_eq hp).2]
    exact hd
  have hwait : ∀ s : Procs, Released c id s → s.down = none → s.pt c = .exitWait c →
      ∃ s', s.Leads s' ∧ s'.pt c = .dead := by
    intro s hr hd hp
    obtain ⟨hv, hq⟩ := (hr.letGo (Or.inr hp)).signalled
    have hs := step_wait hd (by rw [hp]; rfl) (by rw [hq]; exact List.not_mem_nil)
      (show s.freed (.exitsem c) = false from (hr.lock.table.running c (by rw [hp]; rfl)).1.2)
      hv.ne'
    obtain ⟨s', h', hdead⟩ := hremove _ (hr.step hs) hd (by rw [goto_pt, Function.update_self])
    exact ⟨s', (Leads.of_step hs hd).trans h', hdead⟩
  rcases hr.place with hp | hp | hp | hp
  · have hs : s.step (.run c []) = some (s.goto c (.exitWait c)) := by
      rw [step_block hd (by rw [hp]; rfl)]
      unfold block
      rw [hp]
      simp only [hr.lock.table.pcbAt_self (show (s.pt c).active = true by rw [hp]; rfl)]
    obtain ⟨s', h', hdead⟩ := hwait _ (hr.step hs) hd (by rw [goto_pt, Function.update_self])
    exact ⟨s', (Leads.of_step hs hd).trans h', hdead⟩
  · exact hwait s hr hd hp
  · exact hremove s hr hd hp
  · exact ⟨s, .refl hd, hp⟩

/-! ## Before and after the return of the join -/

/-- The parent has its answer, and has let the child go. -/
theorem Meets.released (hm : Meets p c id new s m) {v : ℤ} (ha : m.joiner = .answered v) :
    Released c id s := by
  have hi := hm.inv
  have hl := hm.leaver
  have hslot : (s.pt c).active = true → m.leaver ≠ .freed → s.processID c = id := by
    intro hact hf
    rw [(hm.lock.table.running c hact).2.1, (hm.opened hf).slot]
  cases hlv : m.leaver with
  | waiting =>
    rw [hlv] at hl hslot
    have ho := hm.opened (by rw [hlv]; rintro ⟨⟩)
    have hsem := ho.exitsem
    simp only [Rendezvous.Inv, ha, hlv] at hi
    rw [hi.2.1, hlv] at hsem
    have hact : (s.pt c).active = true := by rcases hl with h | h <;> rw [h] <;> rfl
    refine ⟨hm.lock, ?_, fun _ => ?_, fun _ => hslot hact (by rintro ⟨⟩)⟩
    · rcases hl with h | h
      · exact Or.inl h
      · exact Or.inr (Or.inl h)
    · refine ⟨by rw [hsem]; exact ⟨one_pos, rfl⟩, by rw [ho.joinsem]; exact hi.1, fun u hu => ?_⟩
      by_cases hup : u = p
      · have hj := hm.joiner
        rw [ha, ← hup, hu] at hj
        simp [JoinerAt, Pt.joinsAt] at hj
      · have halone := ho.alone u hup
        rw [hu] at halone
        simp [Pt.intrudes] at halone
  | freeing =>
    rw [hlv] at hl hslot
    have hp : s.pt c = .exitRemove := hl
    refine ⟨hm.lock, Or.inr (Or.inr (Or.inl hp)), fun h => ?_,
      fun _ => hslot (by rw [hp]; rfl) (by rintro ⟨⟩)⟩
    rw [hp] at h
    rcases h with h | h <;> cases h
  | freed =>
    rw [hlv] at hl
    exact released_dead hm.lock hl
  | working | leaving | asleep => simp [Rendezvous.Inv, ha, hlv] at hi

/-- Where the process `c` in slot `id` and its parent `p` are, with the events `new` since the
creation of `c`. -/
inductive Phase (p c id : ℕ) (new : List Event) (s : Procs) : Prop
  /-- `JoinUpdate` has not returned. -/
  | meets (m : Rendezvous.State ℤ) (hm : Meets p c id new s m)
      (hn : new.find? (Event.returnsTo p id) = none)
  /-- It has returned `v` first, which `c` had passed to `ExitUpdate`. -/
  | released (v : ℤ) (hf : new.find? (Event.returnsTo p id) = some (.joinReturned p id v))
      (hv : .exitCalled c v ∈ new) (hr : Released c id s)

/-- The handshake, with a return of the join among the last events or without. -/
theorem phase_of_meets {es : List Event} (hn : new.find? (Event.returnsTo p id) = none)
    (hm : Meets p c id (new ++ es) s m) : Phase p c id (new ++ es) s := by
  have hfind : (new ++ es).find? (Event.returnsTo p id) = es.find? (Event.returnsTo p id) := by
    rw [List.find?_append, hn, Option.none_or]
  rcases hf : es.find? (Event.returnsTo p id) with _ | e
  · exact .meets m hm (hfind.trans hf)
  · obtain ⟨v, rfl⟩ := Event.returnsTo_iff.mp (List.find?_some hf)
    have hmem : .joinReturned p id v ∈ new ++ es :=
      List.mem_append_right _ (List.mem_of_find?_eq_some hf)
    obtain ⟨past, hsub, hpast⟩ := hm.log.history.of_mem hmem
    obtain ⟨hexit, hread⟩ := hpast ⟨rfl, rfl⟩
    exact .released v (hfind.trans hf) (hsub _ hexit)
      (hm.released ((hm.log.read v).mp (hsub _ hread)))

/-- One step, as long as the parent does not exit before the join has returned. -/
theorem Phase.step (hp : Phase p c id new s) (h : s.step l = some s')
    (hx : ∀ ec, l = .exit p ec → (new.find? (Event.returnsTo p id)).isSome = true) :
    ∃ es, s'.log = s.log ++ es ∧ Phase p c id (new ++ es) s' := by
  cases hp with
  | meets m hm hn =>
    -- a thread that calls `JoinUpdate` again has returned from it
    have hjoin : l = .join p id → .joinCalled p id ∉ new := by
      rintro rfl hcalled
      have hu : s.pt p = .user := by
        unfold Procs.step at h
        split_ifs at h with hd
        dsimp only at h
        split_ifs at h with hu
        exact hu
      have hj := hm.joiner
      rw [hu] at hj
      cases hjo : m.joiner with
      | away => exact hm.log.called.mp hcalled hjo
      | answered v =>
        exact absurd (Event.returnsTo_iff.mpr ⟨v, rfl⟩)
          (List.find?_eq_none.mp hn _ (hm.log.returned v hjo (by rw [hu]; rfl)))
      | calling | waiting | asleep | reading => rw [hjo] at hj; simp [JoinerAt] at hj
    have hexit : ∀ ec, l ≠ .exit p ec := by
      intro ec e
      have h := hx ec e
      rw [hn] at h
      cases h
    obtain ⟨es, m', hlog, hm'⟩ := hm.step h hexit hjoin
    exact ⟨es, hlog, phase_of_meets hn hm'⟩
  | released v hf hv hr =>
    obtain ⟨es, hlog, -⟩ := (step_act hr.lock.table h).2.events
    refine ⟨es, hlog, .released v ?_ (List.mem_append_left _ hv) (hr.step h)⟩
    rw [List.find?_append, hf, Option.some_or]

/-- A process in use has its slot. -/
theorem Phase.slot (hp : Phase p c id new s) (ha : (s.pt c).active = true) :
    s.processID c = id := by
  cases hp with
  | meets m hm hn =>
    have hf : m.leaver ≠ .freed := by
      intro hf
      have hl := hm.leaver
      rw [hf] at hl
      rw [show s.pt c = .dead from hl] at ha
      cases ha
    rw [(hm.lock.table.running c ha).2.1, (hm.opened hf).slot]
  | released v hf hv hr =>
    refine hr.slot ?_
    rintro e
    rw [e] at ha
    cases ha

theorem Phase.stop (hp : Phase p c id new s) (d : Down) : Phase p c id new (s.stop d) := by
  cases hp with
  | meets m hm hn =>
    refine .meets m ⟨hm.lock.stop d, hm.inv, hm.ne, hm.nonzero, hm.parent, hm.joiner, hm.leaver,
      fun hf => ?_, hm.log⟩ hn
    have ho := hm.opened hf
    exact ⟨ho.live, ho.slot, ho.creator, ho.parentID, ho.exitcode, ho.joinsem, ho.exitsem, ho.alone⟩
  | released v hf hv hr =>
    refine .released v hf hv ⟨hr.lock.stop d, hr.place, fun hc => ?_, hr.slot⟩
    obtain ⟨hsignalled, hjoin, hread⟩ := hr.letGo hc
    exact ⟨hsignalled, hjoin, hread⟩

/-- A thread that is in `ExitUpdate` or has ended does not come back. -/
theorem exiting_kept (hi : s.TableInv) (h : s.step l = some s')
    (hx : (s.pt c).exiting = true ∨ s.pt c = .dead) :
    (s'.pt c).exiting = true ∨ s'.pt c = .dead := by
  rcases hx with hx | hx
  swap
  · exact Or.inr (dead_kept hi h hx)
  have hact := (step_act hi h).2
  by_cases ht : c = l.thread
  · subst ht
    exact (hact.exiting hx).imp_right And.right
  · have ha : (s.pt c).active = true := by
      cases hp : s.pt c <;> rw [hp] at hx <;> first | rfl | cases hx
    rw [pt_kept hi hact ht ha]
    exact Or.inl hx

end Steps

end Procs

namespace Processes

/-! ## Runs of the system -/

/-- `c` passes 0 to `Exit`, and `p` does not exit before its join of slot `id` has returned. The
first `n` events are from before the creation of `c`. -/
def JoinedFirst (p c id n : ℕ) (s : Processes) : Label → Prop
  | .instruction t _ (.exit status) => (t = c → status = 0) ∧
      (t = p → status = 0 → ((s.procs.log.drop n).find? (Event.returnsTo p id)).isSome = true)
  | _ => True

instance (p c id n : ℕ) (s : Processes) (l : Label) : Decidable (JoinedFirst p c id n s l) := by
  cases l with
  | instruction t pc i =>
    cases i with
    | exit status => exact inferInstanceAs (Decidable (_ ∧ _))
    | _ => exact isTrue trivial
  | _ => exact isTrue trivial

/-- The process has called `Exit` with 0. -/
def Exiting (c : ℕ) (new : List Event) (s : Processes) : Prop :=
  s.procs.down = none → ((s.procs.pt c).exiting = true ∨ s.procs.pt c = .dead) ∧
    .exitCalled c 0 ∈ new ∧ ∃ sp, (c, sp) ∈ s.live ∨ (c, sp.frames) ∈ s.freed

/-- What holds after the steps `ls` since the creation of `c`, with the events `new`. -/
structure Traced (p c id : ℕ) (s₀ : Processes) (ls : List Label) (new : List Event)
    (s : Processes) : Prop where
  inv : s.Inv
  log : s.procs.log = s₀.procs.log ++ new
  phase : Procs.Phase p c id new s.procs
  calls : ∀ v, .exitCalled c v ∈ new →
    ∃ pc status, .instruction c pc (.exit status) ∈ ls ∧ v = status.toInt
  exited : ∀ pc status, .instruction c pc (.exit status) ∈ ls → status = 0 ∧ Exiting c new s

section Runs

variable {p c id : ℕ} {s₀ s s' : Processes} {l : Label} {ls : List Label} {new : List Event}

theorem Label.call_exit {t : ℕ} {ec : ℤ} (h : l.call = some (.exit t ec)) :
    ec = 0 ∧ ∃ pc, l = .instruction t pc (.exit 0) := by
  cases l with
  | start => cases h
  | run => cases h
  | instruction u pc i =>
    cases i with
    | other | exec | join => cases h
    | exit status =>
      simp only [Label.call, Instr.call] at h
      split_ifs at h with h0
      subst h0
      cases h
      exact ⟨rfl, pc, rfl⟩

theorem Exiting.step (hi : s.Inv) (he : Exiting c new s) (h : s.step l = some s')
    (es : List Event) : Exiting c (new ++ es) s' := by
  intro hd'
  obtain ⟨hd, -⟩ := step_act hi h
  obtain ⟨hx, hcalled, sp, hsp⟩ := he hd
  refine ⟨?_, List.mem_append_left _ hcalled, sp, ?_⟩
  · rcases step_procs hi h with hp | ⟨d, rfl⟩ | ⟨l', -, hs⟩
    · rwa [hp]
    · cases hd'
    · exact Procs.exiting_kept hi.lock.table hs hx
  · rcases hsp with hsp | hsp
    · exact live_or_freed hi h hsp
    · exact Or.inr (freed_kept hi h hsp)

/-- The call of `Exit`. -/
theorem exit_called (hi : s.Inv) {pc : Word}
    (h : s.step (.instruction c pc (.exit 0)) = some s') (hd : s'.procs.down = none) :
    s'.procs.log = s.procs.log ++ [.exitCalled c 0] ∧ (s'.procs.pt c).exiting = true ∧
      ∃ sp, (c, sp) ∈ s'.live := by
  obtain ⟨-, hact⟩ := step_act hi h
  cases hact with
  | down d => cases hd
  | idle hf hi => cases hi
  | halt hf hs hh => exact absurd (hh.symm.trans hd) nofun
  | @call _ _ _ l p hf hl hs =>
    obtain rfl : Procs.Label.exit c 0 = l := Option.some.inj hl
    have hd : p.down = none := hd
    obtain ⟨sp, hsp, -⟩ := hf.fetched
    obtain ⟨hlog, hend⟩ := Procs.exit_step hi.lock.table hs
    refine ⟨hlog, ?_, sp, (spaceOf_eq_some hi.nodup).mp hsp⟩
    rcases hend with ⟨-, hh⟩ | ⟨-, hh | hx⟩
    · rw [hd] at hh; cases hh
    · rw [hd] at hh; cases hh
    · exact hx

/-- One step. -/
theorem Traced.step (ht : Traced p c id s₀ ls new s)
    (hok : JoinedFirst p c id s₀.procs.log.length s l) (h : s.step l = some s') :
    ∃ es, Traced p c id s₀ (ls ++ [l]) (new ++ es) s' := by
  have hi := ht.inv
  have hdrop : s.procs.log.drop s₀.procs.log.length = new := by rw [ht.log, List.drop_left]
  -- the events of the step
  obtain ⟨es, hlog, hphase, hcalls⟩ : ∃ es, s'.procs.log = s.procs.log ++ es ∧
      Procs.Phase p c id (new ++ es) s'.procs ∧ ∀ v, .exitCalled c v ∈ es →
        ∃ pc, l = .instruction c pc (.exit 0) ∧ v = 0 := by
    rcases step_procs hi h with hp | ⟨d, rfl⟩ | ⟨l', hl, hs⟩
    · exact ⟨[], by rw [hp, List.append_nil], by rw [List.append_nil, hp]; exact ht.phase, nofun⟩
    · exact ⟨[], (List.append_nil _).symm, by rw [List.append_nil]; exact ht.phase.stop d, nofun⟩
    · obtain ⟨es, hlog, hphase⟩ := ht.phase.step hs fun ec e => by
        subst e
        obtain ⟨-, pc, rfl⟩ := Label.call_exit hl
        exact hdrop ▸ hok.2 rfl rfl
      obtain ⟨es', hlog', hes⟩ := (Procs.step_act hi.lock.table hs).2.events
      obtain rfl : es = es' := List.append_cancel_left (hlog.symm.trans hlog')
      refine ⟨es, hlog, hphase, fun v hv => ?_⟩
      have he : l' = .exit c v := hes _ hv
      subst he
      obtain ⟨rfl, pc, rfl⟩ := Label.call_exit hl
      exact ⟨pc, rfl, rfl⟩
  refine ⟨es, hi.step h, by rw [hlog, ht.log, List.append_assoc], hphase, fun v hv => ?_,
    fun pc status hmem => ?_⟩
  · rcases List.mem_append.mp hv with hv | hv
    · obtain ⟨pc, status, hmem, hv⟩ := ht.calls v hv
      exact ⟨pc, status, List.mem_append_left _ hmem, hv⟩
    · obtain ⟨pc, rfl, rfl⟩ := hcalls v hv
      exact ⟨pc, 0, List.mem_append_right _ (List.mem_singleton.mpr rfl), rfl⟩
  · rcases List.mem_append.mp hmem with hmem | hmem
    · obtain ⟨h0, he⟩ := ht.exited pc status hmem
      exact ⟨h0, he.step hi h es⟩
    · obtain rfl := List.mem_singleton.mp hmem
      obtain rfl := hok.1 rfl
      refine ⟨rfl, fun hd => ?_⟩
      obtain ⟨hcall, hx, sp, hsp⟩ := exit_called hi h hd
      obtain rfl : es = [.exitCalled c 0] := List.append_cancel_left (hlog.symm.trans hcall)
      exact ⟨Or.inl hx, List.mem_append_right _ (List.mem_singleton.mpr rfl), sp, Or.inl hsp⟩

theorem Traced.run {ms : List Label} (ht : Traced p c id s₀ ls new s)
    (ha : Run.Admits Processes.step (JoinedFirst p c id s₀.procs.log.length) s ms)
    (h : Run.exec Processes.step s ms = some s') :
    ∃ es, Traced p c id s₀ (ls ++ ms) (new ++ es) s' := by
  induction ms generalizing s ls new with
  | nil =>
    obtain rfl := Option.some.inj h
    exact ⟨[], by rwa [List.append_nil, List.append_nil]⟩
  | cons l ms ih =>
    obtain ⟨s₁, h₁, h₂⟩ := Run.exec_cons_eq_some.mp h
    obtain ⟨es, ht₁⟩ := ht.step ha.1 h₁
    obtain ⟨es', ht'⟩ := ih ht₁ (ha.2 s₁ h₁) h₂
    refine ⟨es ++ es', ?_⟩
    rwa [List.append_assoc, List.append_assoc] at ht'

theorem Traced.leads (ht : Traced p c id s₀ ls new s) (h : s.Leads s') :
    ∃ ms es, Traced p c id s₀ (ls ++ ms) (new ++ es) s' := by
  obtain ⟨ms, hm, he, -⟩ := h
  obtain ⟨es, ht'⟩ := ht.run (Run.admits_of_mem (fun l hl s => by
    obtain ⟨t, nm, rfl⟩ := hm l hl
    trivial) s) he
  exact ⟨ms, es, ht'⟩

/-- The creation of `c`. -/
theorem traced_created (hi : s.Inv) (h : s.step l = some s')
    (hlog : s'.procs.log = s.procs.log ++ [.created p c id]) (hn : s.procs.NoJoiner id) :
    Traced p c id s' [] [] s' := by
  have hne : s'.procs.log ≠ s.procs.log := by
    rw [hlog]
    simp
  rcases step_procs hi h with hp | ⟨d, rfl⟩ | ⟨l', -, hs⟩
  · exact absurd (congrArg Procs.log hp) hne
  · exact absurd rfl hne
  · have hm := Procs.meets_created hi.lock hs hlog hn
    exact ⟨hi.step h, (List.append_nil _).symm, .meets _ hm rfl, nofun, nofun⟩

/-! ## What the caller is promised -/

/-- What `Exit` does to the process `c`, which `p` has created in slot `id`: after the steps `ls`
and the events `new` since then, the system is in the state `s`. -/
structure ExitLaw (p c id : ℕ) (ls : List Label) (new : List Event) (s : Processes) : Prop where
  /-- After a call of `Exit` the process executes no user instruction. -/
  stopped : ∀ pc status, .instruction c pc (.exit status) ∈ ls →
    ∀ pc' i, s.step (.instruction c pc' i) = none
  /-- The first join of the process returns what it has passed to `Exit`. -/
  status : ∀ v, new.find? (Event.returnsTo p id) = some (.joinReturned p id v) →
    ∃ pc status, .instruction c pc (.exit status) ∈ ls ∧ v = status.toInt
  /-- When the process ends, its slot is free and its frames are given back. -/
  ended : ∀ l s', s.step l = some s' → s.procs.pt c ≠ .dead → s'.procs.pt c = .dead →
    s'.procs.bm.test id = false ∧ ∃ sp, s.spaceOf c = some sp ∧
      s'.freed = s.freed ++ [(c, sp.frames)] ∧
      ∀ f : ℕ, f ∈ s'.bits.marked ↔ f ∈ s.bits.marked ∧ (f : ℤ) ∉ sp.frames
  /-- They are not given back twice. -/
  once : (s.freed.map Prod.fst).count c ≤ 1
  /-- When both have been called, the join can return and the process can end. -/
  ends : ∀ pc status, .instruction c pc (.exit status) ∈ ls → .joinCalled p id ∈ new →
    s.procs.down = none → ∃ s' es, s.Leads s' ∧ s'.procs.log = s.procs.log ++ es ∧
      (new ++ es).find? (Event.returnsTo p id) = some (.joinReturned p id status.toInt) ∧
      s'.procs.pt c = .dead ∧ (s'.freed.map Prod.fst).count c = 1

theorem step_instruction_eq_none {t : ℕ} (h : s.procs.down = none → s.procs.pt t ≠ .user)
    (pc : Word) (i : Instr) : s.step (.instruction t pc i) = none := by
  unfold step
  split_ifs with hd
  · rfl
  · exact if_neg (h (by simpa using hd))

theorem Traced.stopped (ht : Traced p c id s₀ ls new s) {pc status : Word}
    (h : .instruction c pc (.exit status) ∈ ls) (pc' : Word) (i : Instr) :
    s.step (.instruction c pc' i) = none := by
  refine step_instruction_eq_none (fun hd hu => ?_) pc' i
  obtain ⟨hx, -⟩ := (ht.exited pc status h).2 hd
  rw [hu] at hx
  rcases hx with hx | hx <;> cases hx

theorem Traced.status (ht : Traced p c id s₀ ls new s) {v : ℤ}
    (h : new.find? (Event.returnsTo p id) = some (.joinReturned p id v)) :
    ∃ pc status, .instruction c pc (.exit status) ∈ ls ∧ v = status.toInt := by
  rcases ht.phase with ⟨m, hm, hn⟩ | ⟨w, hf, hv, hr⟩
  · rw [hn] at h
    cases h
  · rw [hf] at h
    cases h
    exact ht.calls v hv

theorem Traced.ended (ht : Traced p c id s₀ ls new s) (h : s.step l = some s')
    (hne : s.procs.pt c ≠ .dead) (hd : s'.procs.pt c = .dead) :
    s'.procs.bm.test id = false ∧ ∃ sp, s.spaceOf c = some sp ∧
      s'.freed = s.freed ++ [(c, sp.frames)] ∧
      ∀ f : ℕ, f ∈ s'.bits.marked ↔ f ∈ s.bits.marked ∧ (f : ℤ) ∉ sp.frames := by
  have hi := ht.inv
  -- the thread ends in `Remove`
  have hremove : ∀ l' : Procs.Label, s.procs.step l' = some s'.procs →
      c = l'.thread ∧ s.procs.pt c = .exitRemove ∧ s'.procs.bm.test id = false := by
    intro l' hs
    obtain ⟨hc, hr, hbm⟩ := Procs.dead_step hi.lock.table hs hne hd
    refine ⟨hc, hr, ?_⟩
    rw [hbm, ht.phase.slot (by rw [hr]; rfl), BitMap.test_clear]
    simp
  obtain ⟨-, hact⟩ := step_act hi h
  cases hact with
  | started | down | idle => exact absurd hd hne
  | @call t pc i l p hf hl hs =>
    obtain ⟨hc, hr, -⟩ := hremove _ hs
    rw [hc, Instr.call_thread hl, hf.user] at hr
    cases hr
  | halt hf hs =>
    obtain ⟨rfl, hr, -⟩ := hremove _ hs
    rw [show s.procs.pt _ = Pt.user from hf.user] at hr
    cases hr
  | run hs hr =>
    obtain ⟨rfl, hr', -⟩ := hremove _ hs
    exact absurd hr' hr
  | @remove t nm q sp bm hs hr hp hd' hsp hbm =>
    obtain ⟨rfl, -, hfree⟩ := hremove _ hs
    refine ⟨hfree, sp, hsp, rfl, fun f => ?_⟩
    have hmem : sp ∈ s.spaces.live :=
      List.mem_map_of_mem (f := Prod.snd) ((spaceOf_eq_some hi.nodup).mp hsp)
    have hfound := hi.frames.1.found sp hmem
    have hn : s.bits.numBits = physPageBits := hi.frames.2
    rw [destroy_eq (hi.frames.1.pages sp hmem) (by rw [hn]; exact hfound),
      Option.some.injEq] at hbm
    show f ∈ bm.marked ↔ _
    rw [← hbm, mem_marked_foldl_clear fun f hf => (hfound f hf).1]

/-- Once both have been called, the scheduler can let the join return. -/
theorem Traced.returns (ht : Traced p c id s₀ ls new s) {pc status : Word}
    (h : .instruction c pc (.exit status) ∈ ls) (hj : .joinCalled p id ∈ new)
    (hd : s.procs.down = none) : ∃ s₁ ms es, s.Leads s₁ ∧
      Traced p c id s₀ (ls ++ ms) (new ++ es) s₁ ∧ (new ++ es).find? (Event.returnsTo p id) =
        some (.joinReturned p id status.toInt) ∧ Procs.Released c id s₁.procs := by
  obtain ⟨rfl, hexit⟩ := ht.exited pc status h
  obtain ⟨-, hcalled, -⟩ := hexit hd
  -- whatever is returned first is 0
  have hzero : ∀ {ms : List Label} {es : List Event} {s₁ : Processes},
      Traced p c id s₀ ms (new ++ es) s₁ → .joinReturned p id 0 ∈ new ++ es →
      (new ++ es).find? (Event.returnsTo p id) = some (.joinReturned p id 0) ∧
        Procs.Released c id s₁.procs := by
    intro ms es s₁ ht₁ hret
    rcases ht₁.phase with ⟨m, hm, hn⟩ | ⟨w, hf, hv, hr⟩
    · exact absurd (Event.returnsTo_iff.mpr ⟨0, rfl⟩) (List.find?_eq_none.mp hn _ hret)
    · obtain ⟨pc', status', hmem, rfl⟩ := ht₁.calls w hv
      obtain ⟨rfl, -⟩ := ht₁.exited pc' status' hmem
      exact ⟨hf, hr⟩
  rcases ht.phase with ⟨m, hm, hn⟩ | ⟨w, hf, hv, hr⟩
  · obtain ⟨q, es, hq, hlog, hret⟩ := hm.answers hcalled hd hj
    obtain ⟨s₁, hlead, rfl⟩ := leads_of_procs ht.inv hq
    obtain ⟨ms, es', ht₁⟩ := ht.leads hlead
    obtain rfl : es = es' := by
      have he : s.procs.log ++ es = s.procs.log ++ es' := by
        rw [← hlog, ht₁.log, ht.log, List.append_assoc]
      exact List.append_cancel_left he
    exact ⟨s₁, ms, es, hlead, ht₁, hzero ht₁ hret⟩
  · have ht₁ : Traced p c id s₀ (ls ++ []) (new ++ []) s := by
      rwa [List.append_nil, List.append_nil]
    refine ⟨s, [], [], ⟨[], nofun, rfl, hd⟩, ht₁, hzero ht₁ ?_⟩
    obtain ⟨pc', status', hmem, rfl⟩ := ht.calls w hv
    obtain ⟨rfl, -⟩ := ht.exited pc' status' hmem
    rw [List.append_nil]
    exact List.mem_of_find?_eq_some hf

theorem Traced.ends (ht : Traced p c id s₀ ls new s) {pc status : Word}
    (h : .instruction c pc (.exit status) ∈ ls) (hj : .joinCalled p id ∈ new)
    (hd : s.procs.down = none) : ∃ s' es, s.Leads s' ∧ s'.procs.log = s.procs.log ++ es ∧
      (new ++ es).find? (Event.returnsTo p id) = some (.joinReturned p id status.toInt) ∧
      s'.procs.pt c = .dead ∧ (s'.freed.map Prod.fst).count c = 1 := by
  obtain ⟨s₁, ms, es, hlead, ht₁, hfind, hr⟩ := ht.returns h hj hd
  obtain ⟨q, hq, hdead⟩ := hr.ends hlead.down
  obtain ⟨s₂, hlead₂, rfl⟩ := leads_of_procs ht₁.inv hq
  obtain ⟨ms₂, es₂, ht₂⟩ := ht₁.leads hlead₂
  refine ⟨s₂, es ++ es₂, hlead.trans hlead₂, ?_, ?_, hdead, ?_⟩
  · rw [ht₂.log, ht.log]
    simp only [List.append_assoc]
  · rw [← List.append_assoc, List.find?_append, hfind, Option.some_or]
  · have hmem : .instruction c pc (.exit status) ∈ ls ++ ms ++ ms₂ :=
      List.mem_append_left _ (List.mem_append_left _ h)
    obtain ⟨-, -, sp, hsp⟩ := (ht₂.exited pc status hmem).2 hlead₂.down
    refine List.count_eq_one_of_mem ht₂.inv.once (List.mem_map.mpr ?_)
    rcases hsp with hsp | hsp
    · have hact := ht₂.inv.active c sp hsp
      rw [hdead] at hact
      cases hact
    · exact ⟨_, hsp, rfl⟩

end Runs

/-- **What `Exit` does.** A process that calls `Exit` executes no further user instruction exactly
when the status is 0. If nobody is left in a join of the slot when the process `c` is created, `c`
passes 0 to `Exit`, and its parent does not exit before its join of `c` has returned, then in every
run the first join returns the status of `c`, `c` gives back its slot and its frames when it ends,
the frames not more than once, and after both calls it can come to this. -/
theorem exit_completes {s₁ : Processes} (hr : Run.Reach step Init s₁) :
    (∀ t pc status s', s₁.Fetched t pc → s₁.step (.instruction t pc (.exit status)) = some s' →
      ((∀ pc' i, s'.step (.instruction t pc' i) = none) ↔ status = 0)) ∧
    ∀ (p c id : ℕ) l s₀, s₁.step l = some s₀ → s₀.procs.log = s₁.procs.log ++ [.created p c id] →
      s₁.procs.NoJoiner id → ∀ ls s,
        Run.Admits step (JoinedFirst p c id s₀.procs.log.length) s₀ ls →
          Run.exec step s₀ ls = some s →
            ExitLaw p c id ls (s.procs.log.drop s₀.procs.log.length) s := by
  have hi := inv_reach hr
  refine ⟨fun t pc status s' hf h => ⟨fun hnone => ?_, ?_⟩,
    fun p c id l s₀ h hlog hn ls s ha he => ?_⟩
  · by_contra hne
    -- the thread goes on
    have hd := (step_act hi h).1
    have hs' : s₁.scExit t status = some s₁ := if_pos hne
    rw [step_fetched hd hf] at h
    obtain rfl := Option.some.inj (hs'.symm.trans h)
    have hgo := step_fetched hd hf .other
    rw [hnone pc .other] at hgo
    cases hgo
  · rintro rfl pc' i
    refine step_instruction_eq_none (fun hd hu => ?_) pc' i
    obtain ⟨-, hx, -⟩ := exit_called hi h hd
    rw [hu] at hx
    cases hx
  · have ht₀ := traced_created hi h hlog hn
    obtain ⟨es, ht⟩ := ht₀.run ha he
    rw [List.nil_append, List.nil_append] at ht
    rw [ht.log, List.drop_left]
    exact ⟨fun pc status hmem => ht.stopped hmem, fun v hv => ht.status hv,
      fun l s' hs hne hd => ht.ended hs hne hd, List.nodup_iff_count_le_one.mp ht.inv.once c,
      fun pc status hmem hj hd => ht.ends hmem hj hd⟩

/-- The state after `Initialize`, with a zeroed memory. -/
def boot : Processes where
  procs := Procs.initial fun _ => 0
  loader := freshLoader fun _ => 0
  live := []
  freed := []

theorem boot_init : boot.Init := ⟨⟨_, rfl⟩, emptyMachine_init, rfl⟩

/-- The root starts and is about to create process 1. -/
def launch : List Label :=
  [.start 0 (fun _ => 0) (tinyFile 0), .instruction 0 0 (.exec [66]), .run 0 []]

/-- Process 1 starts, and the root is back in its program. -/
def started : List Label :=
  List.replicate 4 (.run 0 []) ++ [.start 1 (fun _ => 0) (tinyFile 0)]

/-- Process 1 calls `Exit` with 0, the root joins it, and process 1 ends. -/
def goodbye : List Label :=
  started ++ .instruction 1 0 (.exit 0) :: List.replicate 5 (.run 1 []) ++
    .instruction 0 0 (.join 1) :: List.replicate 6 (.run 0 []) ++ List.replicate 2 (.run 1 [])

theorem exit_completes_child :
    ∃ s₁ s₀ s : Processes, Run.exec step boot launch = some s₁ ∧ s₁.step (.run 0 []) = some s₀ ∧
      Run.exec step s₀ goodbye = some s ∧
      ExitLaw 0 1 1 goodbye (s.procs.log.drop s₀.procs.log.length) s ∧
      s.freed = [(1, [3, 4, 5])] ∧ s.procs.bm.test 1 = false := by
  have h : (Run.exec step boot launch).any fun s₁ => (s₁.step (.run 0 [])).any fun s₀ =>
      decide (s₀.procs.log = s₁.procs.log ++ [.created 0 1 1]) &&
        decide (s₁.procs.pt 0 = .execBody (some [66]) ∧ s₁.procs.next = 1) &&
        Run.admitted step (JoinedFirst 0 1 1 s₀.procs.log.length) s₀ goodbye &&
        (Run.exec step s₀ goodbye).any fun s =>
          decide (s.freed = [(1, [3, 4, 5])] ∧ s.procs.bm.test 1 = false) := by
    decide +kernel
  obtain ⟨s₁, h₁, h⟩ := (Option.any_eq_true _ _).mp h
  obtain ⟨s₀, h₀, h⟩ := (Option.any_eq_true _ _).mp h
  obtain ⟨h, he⟩ := Bool.and_eq_true_iff.mp h
  obtain ⟨h, hadm⟩ := Bool.and_eq_true_iff.mp h
  obtain ⟨hlog, h⟩ := Bool.and_eq_true_iff.mp h
  obtain ⟨hpt, hnext⟩ := of_decide_eq_true h
  obtain ⟨s, hs, hend⟩ := (Option.any_eq_true _ _).mp he
  have hr : Run.Reach step Init s₁ := ⟨boot, launch, boot_init, h₁⟩
  have hn : s₁.procs.NoJoiner (1 : ℕ) := by
    intro u
    rcases Nat.eq_zero_or_pos u with rfl | hu
    · rw [hpt]; exact ⟨nofun, nofun, nofun, nofun⟩
    · rw [(inv_reach hr).lock.table.unborn u (by omega)]; exact ⟨nofun, nofun, nofun, nofun⟩
  exact ⟨s₁, s₀, s, h₁, h₀, hs, (exit_completes hr).2 0 1 1 _ s₀ h₀ (of_decide_eq_true hlog) hn
    goodbye s (Run.admits_of_admitted hadm) hs, of_decide_eq_true hend⟩

/-- Process 1 calls `Exit` with 1 and goes on. -/
theorem exit_ignored : ∃ s s' : Processes, Run.Reach step Init s ∧ s.procs.processID 1 ≠ 0 ∧
    s.step (.instruction 1 0 (.exit 1)) = some s' ∧
    ¬ ∀ pc i, s'.step (.instruction 1 pc i) = none := by
  have h : (Run.exec step boot (launch ++ .run 0 [] :: started)).any fun s =>
      decide (s.procs.processID 1 ≠ 0) && (s.step (.instruction 1 0 (.exit 1))).any fun s' =>
        (s'.step (.instruction 1 4 .other)).isSome := by
    decide +kernel
  obtain ⟨s, hs, h⟩ := (Option.any_eq_true _ _).mp h
  obtain ⟨hid, h⟩ := Bool.and_eq_true_iff.mp h
  obtain ⟨s', hs', h⟩ := (Option.any_eq_true _ _).mp h
  refine ⟨s, s', ⟨boot, _, boot_init, hs⟩, of_decide_eq_true hid, hs', fun hnone => ?_⟩
  rw [hnone 4 .other] at h
  cases h

end Processes

end Nachos
