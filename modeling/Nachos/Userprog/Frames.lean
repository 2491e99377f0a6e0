import Mathlib.Data.List.Flatten
import Nachos.Lib.Run
import Nachos.Userprog.Loader

/-!
# Frame accounting over address spaces that come and go

The system of all address spaces: a step constructs one from a file that opens, with either
constructor, or destroys a live one. `Initialize` sizes the frame bitmap with 256 bits.

1. `FrameAccounting` holds in every reachable state (`frameAccounting_reach`): the marked bits
   are the disjoint union of the page tables of the live spaces.
2. The bitmap has twice as many bits as the machine has frames. A space lies in `mainMemory` as
   long as every construction finds its frames below `NumPhysPages` (`FitsMemory`).
-/

namespace Nachos

/-- The number of bits of `gPhysPageBitMap` in `Initialize`. -/
abbrev physPageBits : ℕ := 256

structure Spaces where
  loader : Loader
  live : List AddrSpace

inductive SpaceOp where
  | create (c : Constructor) (stack : ℕ → Byte) (file : List Byte)
  | destroy (k : ℕ)

namespace Spaces

/-- The frame bitmap. -/
abbrev bits (s : Spaces) : BitMap := s.loader.gPhysPageBitMap

/-- One construction that returns, or one destruction of the `k`-th live space. -/
def step (s : Spaces) : SpaceOp → Option Spaces
  | .create c stack file =>
    match AddrSpace.build c stack (some file) s.loader with
    | (.returned sp, l) => some { loader := l, live := s.live ++ [sp] }
    | _ => none
  | .destroy k =>
    (s.live[k]?).bind fun sp => (sp.destroy s.bits).map fun bm =>
      { loader := s.loader.setBitMap bm, live := s.live.eraseIdx k }

/-- The state after `Initialize`. -/
def Init (s : Spaces) : Prop :=
  (∃ words, s.bits = BitMap.new words physPageBits) ∧ s.live = [] ∧ s.loader.written = []

/-- What a construction step does. -/
theorem create_cases {s s' : Spaces} {c : Constructor} {stack : ℕ → Byte} {file : List Byte}
    (hs : s.step (.create c stack file) = some s') :
    ∃ sp, s'.live = s.live ++ [sp] ∧ Accepted (readHeader stack file) s.bits ∧
      IsBuilt (readHeader stack file) file s.loader sp s'.loader := by
  simp only [step] at hs
  split at hs
  · rename_i sp l hbuild
    rw [Option.some.injEq] at hs
    subst hs
    obtain ⟨ha, hb⟩ := build_returned hbuild
    exact ⟨sp, rfl, ha, hb⟩
  · cases hs

end Spaces

/-- The marked bits are the disjoint union of the frames of the live address spaces. -/
structure FrameAccounting (s : Spaces) : Prop where
  marked : ∀ f : ℕ, f ∈ s.bits.marked ↔ ∃ sp ∈ s.live, (f : ℤ) ∈ sp.frames
  disjoint : (s.live.flatMap AddrSpace.frames).Nodup
  pages : ∀ sp ∈ s.live, sp.frames.length = sp.numPages
  found : ∀ sp ∈ s.live, ∀ f ∈ sp.frames, 0 ≤ f ∧ f < physPageBits

/-! ## One destruction -/

theorem foldlM_clear (l : List ℤ) (bm : BitMap) (h : ∀ f ∈ l, 0 ≤ f ∧ f < bm.numBits) :
    l.foldlM (fun (bm : BitMap) f => if bm.inRange f then some (bm.clear f.toNat) else none) bm =
      some ((l.map Int.toNat).foldl BitMap.clear bm) := by
  induction l generalizing bm with
  | nil => rfl
  | cons f l ih =>
    obtain ⟨h0, h1⟩ := h f List.mem_cons_self
    have hin : bm.inRange f = true := by simp [BitMap.inRange, h0, h1]
    rw [List.foldlM_cons, if_pos hin]
    exact ih _ fun g hg => h g (List.mem_cons_of_mem _ hg)

/-- The destructor of a space with its frames in range never fails an `ASSERT`. -/
theorem destroy_eq {sp : AddrSpace} {bm : BitMap} (hl : sp.frames.length = sp.numPages)
    (h : ∀ f ∈ sp.frames, 0 ≤ f ∧ f < bm.numBits) :
    sp.destroy bm = some ((sp.frames.map Int.toNat).foldl BitMap.clear bm) := by
  unfold AddrSpace.destroy
  rw [← hl, List.take_length]
  exact foldlM_clear sp.frames bm h

theorem mem_marked_foldl_clear {l : List ℤ} (h : ∀ f ∈ l, 0 ≤ f) (bm : BitMap) (f : ℕ) :
    f ∈ ((l.map Int.toNat).foldl BitMap.clear bm).marked ↔ f ∈ bm.marked ∧ (f : ℤ) ∉ l := by
  rw [BitMap.marked_foldl_clear, Finset.mem_sdiff, List.mem_toFinset, List.mem_map]
  refine and_congr_right fun _ => not_congr ⟨?_, fun hf => ⟨f, hf, Int.toNat_natCast f⟩⟩
  rintro ⟨g, hg, e⟩
  rw [← e, Int.toNat_of_nonneg (h g hg)]
  exact hg

theorem exists_split_of_getElem? {α : Type} {l : List α} {k : ℕ} {a : α} (h : l[k]? = some a) :
    ∃ l₁ l₂, l = l₁ ++ a :: l₂ ∧ l.eraseIdx k = l₁ ++ l₂ := by
  obtain ⟨hk, rfl⟩ := List.getElem?_eq_some_iff.mp h
  refine ⟨l.take k, l.drop (k + 1), ?_, List.eraseIdx_eq_take_drop_succ l k⟩
  rw [List.cons_getElem_drop_succ, List.take_append_drop]

namespace FrameAccounting

variable {s s' : Spaces}

theorem create {c : Constructor} {stack : ℕ → Byte} {file : List Byte}
    (hi : FrameAccounting s) (hn : s.bits.numBits = physPageBits)
    (hs : s.step (.create c stack file) = some s') :
    FrameAccounting s' ∧ s'.bits.numBits = physPageBits := by
  obtain ⟨sp, hl, _, hb⟩ := Spaces.create_cases hs
  refine ⟨⟨fun f => ?_, ?_, ?_, ?_⟩, hb.numBits.trans hn⟩
  · rw [hb.marked, Finset.mem_union, hi.marked, List.mem_toFinset, ← hb.mem_frames, hl]
    simp only [List.mem_append, List.mem_singleton]
    constructor
    · rintro (⟨sp', h1, h2⟩ | h2)
      · exact ⟨sp', Or.inl h1, h2⟩
      · exact ⟨sp, Or.inr rfl, h2⟩
    · rintro ⟨sp', h1 | rfl, h2⟩
      · exact Or.inl ⟨sp', h1, h2⟩
      · exact Or.inr h2
  · rw [hl, List.flatMap_append, List.flatMap_singleton]
    refine List.Nodup.append hi.disjoint hb.frames_nodup fun f h1 h2 => ?_
    -- a frame of a live space is marked, the frames of the new one were clear
    obtain ⟨n, rfl, _, hnm⟩ := hb.found h2
    exact hnm ((hi.marked n).mpr (List.mem_flatMap.mp h1))
  · intro sp' hsp'
    rcases List.mem_append.mp (hl ▸ hsp') with h1 | h1
    · exact hi.pages sp' h1
    · rw [List.mem_singleton.mp h1]; exact hb.length_frames
  · intro sp' hsp' f hf
    rcases List.mem_append.mp (hl ▸ hsp') with h1 | h1
    · exact hi.found sp' h1 f hf
    · rw [List.mem_singleton.mp h1] at hf
      obtain ⟨n, rfl, hlt, _⟩ := hb.found hf
      have hlt' : n < physPageBits := hn ▸ hlt
      exact ⟨Int.natCast_nonneg n, by exact_mod_cast hlt'⟩

/-- Destroying a live space is possible and clears exactly its frames. -/
theorem destroy_step (hi : FrameAccounting s) (hn : s.bits.numBits = physPageBits) {k : ℕ}
    {sp : AddrSpace} (hk : s.live[k]? = some sp) :
    ∃ s', s.step (.destroy k) = some s' ∧ s'.live = s.live.eraseIdx k ∧
      s'.bits = (sp.frames.map Int.toNat).foldl BitMap.clear s.bits := by
  have hsp : sp ∈ s.live := List.mem_of_getElem? hk
  have hfound : ∀ f ∈ sp.frames, 0 ≤ f ∧ f < s.bits.numBits := fun f hf => by
    rw [hn]; exact hi.found sp hsp f hf
  have hd := destroy_eq (hi.pages sp hsp) hfound
  refine ⟨{ loader := s.loader.setBitMap ((sp.frames.map Int.toNat).foldl BitMap.clear s.bits)
            live := s.live.eraseIdx k }, ?_, rfl, rfl⟩
  simp only [Spaces.step, hk, Option.bind_some, hd, Option.map_some]

theorem destroy {k : ℕ} (hi : FrameAccounting s) (hn : s.bits.numBits = physPageBits)
    (hs : s.step (.destroy k) = some s') :
    FrameAccounting s' ∧ s'.bits.numBits = physPageBits := by
  rcases hk : s.live[k]? with _ | sp
  · simp [Spaces.step, hk] at hs
  obtain ⟨s₁, h₁, hl, hbits⟩ := hi.destroy_step hn hk
  rw [h₁, Option.some.injEq] at hs
  subst hs
  have hsp : sp ∈ s.live := List.mem_of_getElem? hk
  have hpos : ∀ f ∈ sp.frames, 0 ≤ f := fun f hf => (hi.found sp hsp f hf).1
  obtain ⟨l₁, l₂, hsplit, herase⟩ := exists_split_of_getElem? hk
  have hsub : ∀ sp' ∈ s₁.live, sp' ∈ s.live := fun sp' h => List.mem_of_mem_eraseIdx (hl ▸ h)
  have hnd := hi.disjoint
  rw [hsplit, List.flatMap_append, List.flatMap_cons, List.nodup_append] at hnd
  obtain ⟨hnd₁, hnd₂, hdis₁⟩ := hnd
  rw [List.nodup_append] at hnd₂
  obtain ⟨hnd₂, hnd₃, hdis₂⟩ := hnd₂
  refine ⟨⟨fun f => ?_, ?_, fun sp' h => hi.pages sp' (hsub sp' h),
    fun sp' h => hi.found sp' (hsub sp' h)⟩, ?_⟩
  · rw [hbits, mem_marked_foldl_clear hpos, hi.marked, hl, herase, hsplit]
    simp only [List.mem_append, List.mem_cons]
    constructor
    · rintro ⟨⟨sp', h1 | rfl | h1, h2⟩, h3⟩
      · exact ⟨sp', Or.inl h1, h2⟩
      · exact absurd h2 h3
      · exact ⟨sp', Or.inr h1, h2⟩
    · rintro ⟨sp', h1 | h1, h2⟩
      · refine ⟨⟨sp', Or.inl h1, h2⟩, fun h3 => ?_⟩
        exact hdis₁ _ (List.mem_flatMap.mpr ⟨sp', h1, h2⟩) _ (List.mem_append_left _ h3) rfl
      · refine ⟨⟨sp', Or.inr (Or.inr h1), h2⟩, fun h3 => ?_⟩
        exact hdis₂ _ h3 _ (List.mem_flatMap.mpr ⟨sp', h1, h2⟩) rfl
  · rw [hl, herase, List.flatMap_append, List.nodup_append]
    exact ⟨hnd₁, hnd₃, fun a ha b hb => hdis₁ a ha b (List.mem_append_right _ hb)⟩
  · rw [hbits, BitMap.foldl_clear_numBits, hn]

theorem step {l : SpaceOp} (hi : FrameAccounting s ∧ s.bits.numBits = physPageBits)
    (hs : s.step l = some s') : FrameAccounting s' ∧ s'.bits.numBits = physPageBits := by
  cases l with
  | create c stack file => exact hi.1.create hi.2 hs
  | destroy k => exact hi.1.destroy hi.2 hs

end FrameAccounting

theorem frameAccounting_init {s : Spaces} (h : s.Init) :
    FrameAccounting s ∧ s.bits.numBits = physPageBits := by
  obtain ⟨⟨words, hb⟩, hl, _⟩ := h
  refine ⟨⟨fun f => ?_, ?_, ?_, ?_⟩, ?_⟩
  · rw [hb, hl, BitMap.marked_new]; simp
  · rw [hl]; simp
  · rw [hl]; simp
  · rw [hl]; simp
  · rw [hb, BitMap.new_numBits]

theorem frameAccounting_reach {s : Spaces} (h : Run.Reach Spaces.step Spaces.Init s) :
    FrameAccounting s ∧ s.bits.numBits = physPageBits :=
  h.inv (fun s => FrameAccounting s ∧ s.bits.numBits = physPageBits)
    (fun _ => frameAccounting_init) fun _ _ _ hi hs => FrameAccounting.step hi hs

/-- **Frame accounting.** In every reachable state the marked bits are the disjoint union of the
page tables of the live spaces; a construction refused for lack of memory changes no bit, one that
is not refused gets as many frames as its header asks for, and a destruction clears exactly the
frames of its space. -/
theorem frame_accounting {s : Spaces} (h : Run.Reach Spaces.step Spaces.Init s) :
    FrameAccounting s ∧
    (∀ c stack file s', s.step (.create c stack file) = some s' →
      (s.bits.numClear < (readHeader stack file).numPages → s'.bits = s.bits) ∧
      (¬ s.bits.numClear < (readHeader stack file).numPages →
        ∃ sp, s'.live = s.live ++ [sp] ∧ sp.numPages = (readHeader stack file).numPages ∧
          ∀ f : ℕ, f ∈ s'.bits.marked ↔ f ∈ s.bits.marked ∨ (f : ℤ) ∈ sp.frames)) ∧
    (∀ k sp, s.live[k]? = some sp → ∃ s', s.step (.destroy k) = some s' ∧
      s'.live = s.live.eraseIdx k ∧
      ∀ f : ℕ, f ∈ s'.bits.marked ↔ f ∈ s.bits.marked ∧ (f : ℤ) ∉ sp.frames) := by
  obtain ⟨hi, hn⟩ := frameAccounting_reach h
  refine ⟨hi, ?_, ?_⟩
  · intro c stack file s' hs
    obtain ⟨sp, hl, _, hb⟩ := Spaces.create_cases hs
    refine ⟨fun hr => hb.refused hr, fun hr => ⟨sp, hl, ?_, fun f => ?_⟩⟩
    · rw [hb.pages, pagesFor_enough hr]
    · rw [hb.mem_frames, ← List.mem_toFinset, ← Finset.mem_union, ← hb.marked]
  · intro k sp hk
    obtain ⟨s', h', hl, hbits⟩ := hi.destroy_step hn hk
    refine ⟨s', h', hl, fun f => ?_⟩
    rw [hbits, mem_marked_foldl_clear fun f hf => (hi.found sp (List.mem_of_getElem? hk) f hf).1]

/-- The state after `Initialize` with a zeroed memory. -/
def emptyMachine : Spaces where
  loader := freshLoader fun _ => 0
  live := []

theorem emptyMachine_init : emptyMachine.Init := by
  refine ⟨⟨fun _ => 0, ?_⟩, rfl, rfl⟩
  simp only [Spaces.bits, emptyMachine, freshLoader]

/-- The tiny program as the first one. -/
theorem emptyMachine_create (bss : Word) :
    ∃ sp s, emptyMachine.step (.create .fileName (fun _ => 0) (tinyFile bss)) = some s ∧
      s.live = [sp] ∧ IsBuilt (tinyHeader bss) (tinyFile bss) emptyMachine.loader sp s.loader := by
  have hh := readHeader_tiny (fun _ => 0) bss
  have ha := accepted_tiny bss fun _ => 0
  rw [← hh] at ha
  obtain ⟨sp, l, hbuild, hb⟩ := build_accepted .fileName ha
  rw [hh] at hb
  refine ⟨sp, { loader := l, live := [sp] }, ?_, rfl, hb⟩
  simp only [Spaces.step, emptyMachine, hbuild, List.nil_append]

theorem frame_accounting_tiny :
    ∃ s sp, s.live = [sp] ∧ (tinyHeader 0).numPages = sp.frames.length ∧ FrameAccounting s := by
  obtain ⟨sp, s, hs, hl, hb⟩ := emptyMachine_create 0
  have hr : Run.Reach Spaces.step Spaces.Init s :=
    ⟨emptyMachine, [_], emptyMachine_init, Run.exec_cons_eq_some.mpr ⟨s, hs, rfl⟩⟩
  refine ⟨s, sp, hl, ?_, (frame_accounting hr).1⟩
  rw [hb.frames, emptyMachine, freshLoader, framesFor_new _ (by decide)]
  simp

/-! ## Frames of the machine -/

/-- A construction fits the machine: it needs no more frames than are free below `NumPhysPages`,
and no chunk it copies leaves `mainMemory`. -/
structure FitsMemory (h : NoffHeader) (len : ℕ) (bm : BitMap) : Prop where
  frames : pagesFor h bm ≤ (bm.clearBits.filter (· < numPhysPages)).length
  chunks : ∀ seg ∈ [h.code, h.initData], 0 < seg.size.toInt → ∀ i < (framesFor h bm).length,
    0 < chunkSize seg len i → 0 ≤ chunkBase seg (framesFor h bm) i ∧
      chunkBase seg (framesFor h bm) i + chunkSize seg len i ≤ memorySize

/-- Every construction of the run fits the machine. -/
def Spaces.Fits (s : Spaces) : SpaceOp → Prop
  | .create _ stack file => FitsMemory (readHeader stack file) file.length s.bits
  | .destroy _ => True

/-- All live spaces lie in the frames of the machine, and so do all bytes ever written. -/
structure InMachine (s : Spaces) : Prop where
  frames : ∀ sp ∈ s.live, ∀ f ∈ sp.frames, 0 ≤ f ∧ f < numPhysPages
  written : ∀ p ∈ s.loader.written, 0 ≤ p ∧ p < memorySize

/-- The first `n` elements of an increasing list are below `m` if it has `n` elements below `m`. -/
theorem lt_of_mem_take {l : List ℕ} (hl : l.Pairwise (· < ·)) {m n : ℕ}
    (hn : n ≤ (l.filter (· < m)).length) : ∀ f ∈ l.take n, f < m := by
  induction l generalizing n with
  | nil => simp
  | cons x l ih =>
    obtain ⟨hx, hl'⟩ := List.pairwise_cons.mp hl
    by_cases hxm : x < m
    · rw [List.filter_cons_of_pos (by simpa using hxm), List.length_cons] at hn
      rcases n with _ | n
      · simp
      · rw [List.take_succ_cons, List.forall_mem_cons]
        exact ⟨hxm, ih hl' (by omega)⟩
    · have hnone : (x :: l).filter (· < m) = [] := by
        rw [List.filter_eq_nil_iff]
        intro y hy
        rcases List.mem_cons.mp hy with rfl | hy
        · simpa using hxm
        · have := hx y hy
          simp only [decide_eq_true_eq]
          omega
      rw [hnone, List.length_nil, Nat.le_zero] at hn
      simp [hn]

theorem FitsMemory.frames_lt {h : NoffHeader} {len : ℕ} {bm : BitMap} (hf : FitsMemory h len bm) :
    ∀ f ∈ framesFor h bm, f < numPhysPages :=
  lt_of_mem_take bm.clearBits_pairwise hf.frames

theorem FitsMemory.copies {h : NoffHeader} {len : ℕ} {bm : BitMap} (hf : FitsMemory h len bm) :
    ∀ p ∈ (copiesFor h len bm).map Prod.fst, 0 ≤ p ∧ p < memorySize := by
  intro p hp
  obtain ⟨seg, hseg, i, hi, hs, h1, h2⟩ := mem_loadCopies_fst.mp hp
  obtain ⟨h3, h4⟩ := hf.chunks seg hseg hs i hi (by omega)
  omega

namespace InMachine

variable {s s' : Spaces}

theorem step {l : SpaceOp} (hi : InMachine s) (hfit : s.Fits l) (hs : s.step l = some s') :
    InMachine s' := by
  cases l with
  | create c stack file =>
    obtain ⟨sp, hl, _, hb⟩ := Spaces.create_cases hs
    refine ⟨fun sp' hsp' f hf => ?_, fun p hp => ?_⟩
    · rcases List.mem_append.mp (hl ▸ hsp') with h1 | h1
      · exact hi.frames sp' h1 f hf
      · rw [List.mem_singleton.mp h1, hb.frames, List.mem_map] at hf
        obtain ⟨n, hn, rfl⟩ := hf
        exact ⟨Int.natCast_nonneg n, by exact_mod_cast FitsMemory.frames_lt hfit n hn⟩
    · rw [hb.written, List.mem_append] at hp
      rcases hp with hp | hp
      · exact hi.written p hp
      · exact FitsMemory.copies hfit p hp
  | destroy k =>
    simp only [Spaces.step, Option.bind_eq_some_iff, Option.map_eq_some_iff] at hs
    obtain ⟨sp, _, bm, _, rfl⟩ := hs
    exact ⟨fun sp' hsp' => hi.frames sp' (List.mem_of_mem_eraseIdx hsp'), hi.written⟩

theorem init (h : s.Init) : InMachine s := by
  obtain ⟨_, hl, hw⟩ := h
  exact ⟨by simp [hl], by simp [hw]⟩

end InMachine

/-- **No bus errors.** As long as every construction fits the machine, the frames of all live
spaces lie below `NumPhysPages`, no address of a live space raises a bus error, and no byte outside
`mainMemory` is ever written. -/
theorem live_spaces_in_machine {s : Spaces}
    (h : Run.ReachBy Spaces.step Spaces.Fits Spaces.Init s) :
    (∀ sp ∈ s.live, ∀ e ∈ sp.pageTable, 0 ≤ e.physicalPage ∧ e.physicalPage < numPhysPages) ∧
    (∀ sp ∈ s.live, ∀ (virtAddr : Word) (size : ℕ) (writing : Bool),
      translate sp.pageTable virtAddr size writing ≠ .exception .busErrorException) ∧
    (∀ p ∈ s.loader.written, 0 ≤ p ∧ p < memorySize) := by
  have hi : InMachine s := h.inv InMachine (fun _ => InMachine.init) fun _ _ _ hi => hi.step
  have htable : ∀ sp ∈ s.live, ∀ e ∈ sp.pageTable,
      0 ≤ e.physicalPage ∧ e.physicalPage < numPhysPages := fun sp hsp e he =>
    hi.frames sp hsp _ (List.mem_map.mpr ⟨e, he, rfl⟩)
  refine ⟨htable, fun sp hsp virtAddr size writing => ?_, hi.written⟩
  exact translate_ne_busError (fun e he => htable sp hsp e (List.mem_of_getElem? he)) size writing

/-- A small program on an empty machine. -/
theorem live_spaces_in_machine_tiny :
    ∃ (s : Spaces) (sp : AddrSpace), s.live = [sp] ∧ (∀ (virtAddr : Word) (size : ℕ) (writing : Bool),
      translate sp.pageTable virtAddr size writing ≠ .exception .busErrorException) := by
  obtain ⟨sp, s, hs, hl, hb⟩ := emptyMachine_create 0
  have hfr : framesFor (tinyHeader 0) emptyMachine.bits = [0, 1, 2] := framesFor_tiny (by decide) _
  have hfit : FitsMemory (tinyHeader 0) (tinyFile 0).length emptyMachine.bits := by
    constructor
    · rw [← length_framesFor, hfr, Spaces.bits, emptyMachine, freshLoader, BitMap.clearBits_new]
      decide +kernel
    · rw [hfr]; decide
  rw [← readHeader_tiny fun _ => 0] at hfit
  have hr : Run.ReachBy Spaces.step Spaces.Fits Spaces.Init s :=
    ⟨emptyMachine, [.create .fileName (fun _ => 0) (tinyFile 0)], emptyMachine_init,
      ⟨hfit, fun _ _ => trivial⟩, Run.exec_cons_eq_some.mpr ⟨s, hs, rfl⟩⟩
  exact ⟨s, sp, hl, (live_spaces_in_machine hr).2.1 sp (by simp [hl])⟩

/-- One program of 130 pages gets frames the machine does not have. -/
theorem large_program_leaves_machine :
    ∃ s, Run.Reach Spaces.step Spaces.Init s ∧
      ∃ sp ∈ s.live, ∃ e ∈ sp.pageTable, ¬ e.physicalPage < numPhysPages := by
  obtain ⟨sp, s, hs, hl, hb⟩ := emptyMachine_create 65024
  refine ⟨s, ⟨emptyMachine, [_], emptyMachine_init, Run.exec_cons_eq_some.mpr ⟨s, hs, rfl⟩⟩,
    sp, by simp [hl], ?_⟩
  have hp : (tinyHeader 65024).numPages = 130 := by decide
  have hmem : (128 : ℕ) ∈ framesFor (tinyHeader 65024) emptyMachine.loader.gPhysPageBitMap := by
    rw [emptyMachine, freshLoader, framesFor_new _ (by omega), hp, List.mem_range'_1]
    omega
  obtain ⟨e, he, hpage⟩ := List.mem_map.mp (hb.mem_frames.mpr hmem)
  exact ⟨e, he, by rw [hpage]; decide⟩

end Nachos
