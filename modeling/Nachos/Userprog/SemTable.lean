import Mathlib.Algebra.Order.Ring.Int
import Nachos.Lib.Run
import Nachos.Userprog.Exception

/-!
# The semaphore table under any sequence of calls

`STable` keeps its semaphores in an array, with a bitmap of the used slots, and finds them by name.
`SemMap` is what it is for: a map from names to semaphores with room for `maxSemaphore` of them.
`STable.Agrees` is the invariant: bitmap and array agree, and no name occurs twice. In a table with
it the loops find the one semaphore of a name, and each operation is the one of the map.

`FindFreeSlot` has no `return`; it is taken to yield what `Find` returns.
-/

namespace Nachos

namespace STable

/-! ## The operations -/

/-- The size of the array `name` in `Sem`. -/
abbrev nameSize : ℕ := 50

/-- `Create`: what it returns, if there is a `return` on the way it takes, and the table. `none`:
undefined behaviour, as when `strcpy` writes past the end of `name`. -/
def create (t : STable) (name : Name) (init : ℤ) : Option (Option ℤ × STable) :=
  match t.lookup name with
  | .undefined => none
  | .found _ _ => some (some (-1), t)
  | .missing =>
    let freeSpace := t.bm.find.1
    let t := { t with bm := t.bm.find.2 }
    if freeSpace < 0 then some (some (-1), t)
    else if name.length < nameSize then
      some (none, t.setSem freeSpace.toNat { name := name, sem := Semaphore.new init })
    else none

/-- One round of the loop in `P` by `thread` on the semaphore `s` in slot `i`: it returns 0, or the
thread goes to sleep. -/
def waitRound (t : STable) (thread i : ℕ) (s : Sem) : Option ℤ × STable :=
  (if (s.sem.P thread).2 then some 0 else none, t.setSem i { s with sem := (s.sem.P thread).1 })

/-- `Wait` by `thread`, up to its return or its first sleep. -/
def wait (t : STable) (thread : ℕ) (name : Name) : Option (Option ℤ × STable) :=
  match t.lookup name with
  | .undefined => none
  | .missing => some (some (-1), t)
  | .found i s => some (t.waitRound thread i s)

def signal (t : STable) (name : Name) : Option (ℤ × STable) :=
  match t.lookup name with
  | .undefined => none
  | .missing => some (-1, t)
  | .found i s => some (0, t.setSem i { s with sem := s.sem.V })

/-! ## What the loops find -/

structure Agrees (t : STable) : Prop where
  numBits : t.bm.numBits = maxSemaphore
  bit : ∀ i < maxSemaphore, t.bm.test i = (t.semTab i).isSome
  outside : ∀ i, maxSemaphore ≤ i → t.semTab i = none
  distinct : ∀ i j a b, t.semTab i = some a → t.semTab j = some b → a.name = b.name → i = j

theorem agrees_new (words : ℕ → Word) : Agrees (new words) where
  numBits := BitMap.new_numBits words maxSemaphore
  bit := fun _ hi => BitMap.test_new words hi
  outside := fun _ _ => rfl
  distinct := fun _ _ _ _ h => nomatch h

theorem setSem_semTab (t : STable) (i j : ℕ) (s : Sem) :
    (t.setSem i s).semTab j = if j = i then some s else t.semTab j := by
  unfold setSem
  exact Function.update_apply t.semTab i (some s) j

variable {t : STable} {name : Name}

namespace Agrees

theorem lt_of_some (ha : t.Agrees) {i : ℕ} {s : Sem} (h : t.semTab i = some s) :
    i < maxSemaphore := by
  by_contra hi
  rw [ha.outside i (Nat.le_of_not_lt hi)] at h
  cases h

theorem none_of_clear (ha : t.Agrees) {i : ℕ} (hi : i < maxSemaphore)
    (hb : t.bm.test i = false) : t.semTab i = none := by
  rw [ha.bit i hi] at hb
  exact Option.not_isSome_iff_eq_none.mp (Bool.eq_false_iff.mp hb)

/-- The loop over the slots `is`. -/
theorem lookupFrom (ha : t.Agrees) (name : Name) (is : List ℕ) (hlt : ∀ i ∈ is, i < maxSemaphore) :
    (∃ i ∈ is, ∃ s, t.semTab i = some s ∧ s.name = name ∧ t.lookupFrom name is = .found i s) ∨
      (∀ i ∈ is, ∀ s, t.semTab i = some s → s.name ≠ name) ∧ t.lookupFrom name is = .missing := by
  induction is with
  | nil => exact Or.inr ⟨fun _ h => absurd h List.not_mem_nil, rfl⟩
  | cons i is ih =>
    have ih := ih fun j hj => hlt j (List.mem_cons_of_mem i hj)
    have hbit := ha.bit i (hlt i List.mem_cons_self)
    -- an unused slot and one with another name are passed over
    have hskip : (∀ s, t.semTab i = some s → s.name ≠ name) →
        t.lookupFrom name (i :: is) = t.lookupFrom name is := by
      intro hne
      rw [STable.lookupFrom, hbit]
      cases hs : t.semTab i with
      | none => rfl
      | some s =>
        show (if name = s.name then _ else _) = _
        exact if_neg fun e => hne s hs e.symm
    by_cases hname : ∃ s, t.semTab i = some s ∧ s.name = name
    · obtain ⟨s, hs, rfl⟩ := hname
      refine Or.inl ⟨i, List.mem_cons_self, s, hs, rfl, ?_⟩
      rw [STable.lookupFrom, hbit, hs]
      show (if s.name = s.name then _ else _) = _
      exact if_pos rfl
    · have hne : ∀ s, t.semTab i = some s → s.name ≠ name := fun s hs e => hname ⟨s, hs, e⟩
      rw [hskip hne]
      rcases ih with ⟨j, hj, s, hs, hn, hf⟩ | ⟨hall, hf⟩
      · exact Or.inl ⟨j, List.mem_cons_of_mem i hj, s, hs, hn, hf⟩
      · refine Or.inr ⟨fun j hj => ?_, hf⟩
        rcases List.mem_cons.mp hj with rfl | hj
        · exact hne
        · exact hall j hj

theorem lookup_cases (ha : t.Agrees) (name : Name) :
    (∃ i s, t.semTab i = some s ∧ s.name = name ∧ t.lookup name = .found i s) ∨
      (∀ i s, t.semTab i = some s → s.name ≠ name) ∧ t.lookup name = .missing := by
  rcases ha.lookupFrom name (List.range maxSemaphore) fun i hi => List.mem_range.mp hi with
    ⟨i, _, s, hs, hn, hf⟩ | ⟨hall, hf⟩
  · exact Or.inl ⟨i, s, hs, hn, hf⟩
  · exact Or.inr ⟨fun i s hs => hall i (List.mem_range.mpr (ha.lt_of_some hs)) s hs, hf⟩

theorem lookup_of_some (ha : t.Agrees) {i : ℕ} {s : Sem} (h : t.semTab i = some s) :
    t.lookup s.name = .found i s := by
  rcases ha.lookup_cases s.name with ⟨j, s', hs', hn, hf⟩ | ⟨hall, _⟩
  · obtain rfl : j = i := ha.distinct j i s' s hs' h hn
    rw [h] at hs'
    cases hs'
    exact hf
  · exact absurd rfl (hall i s h)

/-- A semaphore is replaced by another one of its name. -/
theorem setSem (ha : t.Agrees) {i : ℕ} {s : Sem} (h : t.semTab i = some s) (x : Semaphore) :
    (t.setSem i { s with sem := x }).Agrees where
  numBits := ha.numBits
  bit := by
    intro j hj
    rw [setSem_semTab]
    show t.bm.test j = _
    rw [ha.bit j hj]
    by_cases hji : j = i
    · rw [if_pos hji, hji, h]
      rfl
    · rw [if_neg hji]
  outside := by
    intro j hj
    rw [setSem_semTab, if_neg, ha.outside j hj]
    rintro rfl
    exact Nat.not_lt.mpr hj (ha.lt_of_some h)
  distinct := by
    intro j k a b hja hkb hn
    rw [setSem_semTab] at hja hkb
    -- the names in the table are the ones before
    have old : ∀ l c, (if l = i then some { s with sem := x } else t.semTab l) = some c →
        ∃ c', t.semTab l = some c' ∧ c'.name = c.name := by
      intro l c hc
      by_cases hl : l = i
      · rw [if_pos hl] at hc
        cases hc
        exact ⟨s, hl ▸ h, rfl⟩
      · rw [if_neg hl] at hc
        exact ⟨c, hc, rfl⟩
    obtain ⟨a', ha', hna⟩ := old j a hja
    obtain ⟨b', hb', hnb⟩ := old k b hkb
    exact ha.distinct j k a' b' ha' hb' (by rw [hna, hn, hnb])

/-- A free slot gets a semaphore with a new name. -/
theorem addSem (ha : t.Agrees) {i : ℕ} (hi : i < maxSemaphore) (s : Sem)
    (hnew : ∀ j s', t.semTab j = some s' → s'.name ≠ s.name) :
    (STable.setSem { t with bm := t.bm.mark i } i s).Agrees where
  numBits := ha.numBits
  bit := by
    intro j hj
    rw [setSem_semTab]
    show (t.bm.mark i).test j = _
    rw [BitMap.test_mark, ha.bit j hj]
    by_cases hji : j = i
    · simp [hji]
    · simp [hji]
  outside := by
    intro j hj
    rw [setSem_semTab, if_neg (by omega)]
    exact ha.outside j hj
  distinct := by
    intro j k a b hja hkb hn
    rw [setSem_semTab] at hja hkb
    by_cases hj : j = i <;> by_cases hk : k = i
    · rw [hj, hk]
    · rw [if_pos hj] at hja
      rw [if_neg hk] at hkb
      cases hja
      exact absurd hn.symm (hnew k b hkb)
    · rw [if_neg hj] at hja
      rw [if_pos hk] at hkb
      cases hkb
      exact absurd hn (hnew j a hja)
    · rw [if_neg hj] at hja
      rw [if_neg hk] at hkb
      exact ha.distinct j k a b hja hkb hn

end Agrees

end STable

/-! ## The map -/

/-- What the table is for: semaphores by name. -/
structure SemMap where
  entries : Name → Option Semaphore
  size : ℕ

namespace SemMap

def set (m : SemMap) (name : Name) (x : Semaphore) : SemMap :=
  { m with entries := Function.update m.entries name (some x) }

def create (m : SemMap) (name : Name) (init : ℤ) : Option ℤ × SemMap :=
  if m.entries name = none ∧ m.size < maxSemaphore then
    (none, { m.set name (Semaphore.new init) with size := m.size + 1 })
  else (some (-1), m)

def wait (m : SemMap) (thread : ℕ) (name : Name) : Option ℤ × SemMap :=
  match m.entries name with
  | none => (some (-1), m)
  | some x => (if (x.P thread).2 then some 0 else none, m.set name (x.P thread).1)

def signal (m : SemMap) (name : Name) : ℤ × SemMap :=
  match m.entries name with
  | none => (-1, m)
  | some x => (0, m.set name x.V)

variable {m : SemMap} {name name' : Name} {x : Semaphore}

/-- `create` leaves the semaphores that exist alone. -/
theorem create_entries (h : m.entries name = some x) (init : ℤ) :
    (m.create name' init).2.entries name = some x := by
  unfold create
  split
  · rename_i hnew
    have hne : name ≠ name' := by
      rintro rfl
      rw [h] at hnew
      exact Option.some_ne_none x hnew.1
    exact (Function.update_of_ne hne _ _).trans h
  · exact h

theorem wait_some (h : m.entries name = some x) (thread : ℕ) :
    m.wait thread name =
      (if (x.P thread).2 then some 0 else none, m.set name (x.P thread).1) := by
  rw [wait, h]

theorem wait_none (h : m.entries name = none) (thread : ℕ) :
    m.wait thread name = (some (-1), m) := by
  rw [wait, h]

theorem signal_some (h : m.entries name = some x) : m.signal name = (0, m.set name x.V) := by
  rw [signal, h]

theorem signal_none (h : m.entries name = none) : m.signal name = (-1, m) := by
  rw [signal, h]

theorem set_same (m : SemMap) (name : Name) (x : Semaphore) : (m.set name x).entries name = some x :=
  Function.update_self name _ _

theorem set_other (m : SemMap) (h : name ≠ name') (x : Semaphore) :
    (m.set name' x).entries name = m.entries name :=
  Function.update_of_ne h _ _

/-- `wait` for a name leaves the others alone. -/
theorem wait_other (h : name ≠ name') (thread : ℕ) :
    (m.wait thread name').2.entries name = m.entries name := by
  cases hm : m.entries name' with
  | none => rw [wait_none hm]
  | some y => rw [wait_some hm, set_other m h]

theorem signal_other (h : name ≠ name') : (m.signal name').2.entries name = m.entries name := by
  cases hm : m.entries name' with
  | none => rw [signal_none hm]
  | some y => rw [signal_some hm, set_other m h]

end SemMap

namespace STable

variable {t : STable} {name : Name}

/-- The semaphore with this name. -/
def find (t : STable) (name : Name) : Option Semaphore :=
  match t.lookup name with
  | .found _ s => some s.sem
  | _ => none

/-- The slots with a semaphore. -/
def used (t : STable) : Finset ℕ :=
  (Finset.range maxSemaphore).filter fun i => (t.semTab i).isSome = true

def size (t : STable) : ℕ := t.used.card

def toMap (t : STable) : SemMap where
  entries := t.find
  size := t.size

theorem find_eq_some (ha : t.Agrees) {x : Semaphore} :
    t.find name = some x ↔ ∃ i, t.semTab i = some { name := name, sem := x } := by
  constructor
  · intro h
    rcases ha.lookup_cases name with ⟨i, s, hs, hn, hf⟩ | ⟨_, hf⟩
    · rw [find, hf] at h
      cases h
      exact ⟨i, by rw [hs, ← hn]⟩
    · rw [find, hf] at h
      cases h
  · rintro ⟨i, hi⟩
    rw [find, ha.lookup_of_some hi]

theorem find_eq_none (ha : t.Agrees) :
    t.find name = none ↔ ∀ i s, t.semTab i = some s → s.name ≠ name := by
  rcases ha.lookup_cases name with ⟨i, s, hs, hn, hf⟩ | ⟨hall, hf⟩
  · rw [find, hf]
    constructor
    · rintro ⟨⟩
    · intro h
      exact absurd hn (h i s hs)
  · rw [find, hf]
    exact ⟨fun _ => hall, fun _ => rfl⟩

/-- Two tables that agree hold the same map where their slots hold the same semaphores. -/
theorem find_setSem (ha : t.Agrees) {i : ℕ} {s : Sem} {b : BitMap}
    (ha' : (setSem { t with bm := b } i s).Agrees)
    (hold : ∀ s', t.semTab i = some s' → s'.name = s.name) :
    (setSem { t with bm := b } i s).find = Function.update t.find s.name (some s.sem) := by
  funext n
  apply Option.ext
  intro x
  rw [find_eq_some ha', Function.update_apply]
  by_cases hn : n = s.name
  · rw [if_pos hn]
    constructor
    · rintro ⟨j, hj⟩
      -- only slot `i` has this name
      obtain rfl : j = i := ha'.distinct j i _ s hj (by rw [setSem_semTab, if_pos rfl]) hn
      rw [setSem_semTab, if_pos rfl] at hj
      cases hj
      rfl
    · intro h
      cases h
      exact ⟨i, by rw [setSem_semTab, if_pos rfl, hn]⟩
  · rw [if_neg hn, find_eq_some ha]
    have hiff : ∀ j, (setSem { t with bm := b } i s).semTab j = some { name := n, sem := x } ↔
        t.semTab j = some { name := n, sem := x } := by
      intro j
      rw [setSem_semTab]
      by_cases hj : j = i
      · rw [if_pos hj, hj]
        constructor
        · intro h
          cases h
          exact absurd rfl hn
        · intro h
          exact absurd (hold _ h) hn
      · rw [if_neg hj]
    exact exists_congr hiff

theorem mem_used {i : ℕ} : i ∈ t.used ↔ i < maxSemaphore ∧ (t.semTab i).isSome = true := by
  unfold used
  rw [Finset.mem_filter, Finset.mem_range]

theorem used_setSem {i : ℕ} {s : Sem} {b : BitMap} (hi : i < maxSemaphore) :
    (setSem { t with bm := b } i s).used = insert i t.used := by
  ext j
  rw [Finset.mem_insert, mem_used, mem_used, setSem_semTab]
  by_cases hj : j = i
  · simp [hj, hi]
  · simp [hj]

/-- A table has room exactly when its bitmap has a clear bit. -/
theorem size_lt_iff (ha : t.Agrees) : t.size < maxSemaphore ↔ t.bm.clearBits ≠ [] := by
  have hsub : t.used ⊆ Finset.range maxSemaphore := Finset.filter_subset _ _
  constructor
  · intro hlt hc
    have hfull : t.used = Finset.range maxSemaphore := by
      apply Finset.filter_true_of_mem
      intro i hi
      rw [← ha.bit i (Finset.mem_range.mp hi)]
      by_contra hb
      have hmem : i ∈ t.bm.clearBits := BitMap.mem_clearBits.mpr
        ⟨ha.numBits ▸ Finset.mem_range.mp hi, Bool.eq_false_iff.mpr hb⟩
      rw [hc] at hmem
      exact absurd hmem List.not_mem_nil
    rw [size, hfull, Finset.card_range] at hlt
    exact absurd hlt (Nat.lt_irrefl _)
  · intro hc
    obtain ⟨i, hi⟩ := List.exists_mem_of_ne_nil _ hc
    obtain ⟨hlt, hb⟩ := BitMap.mem_clearBits.mp hi
    rw [ha.numBits] at hlt
    have hss : t.used ⊂ Finset.range maxSemaphore := by
      refine (Finset.ssubset_iff_of_subset hsub).mpr ⟨i, Finset.mem_range.mpr hlt, fun hu => ?_⟩
      have hsome := (mem_used.mp hu).2
      rw [ha.none_of_clear hlt hb] at hsome
      cases hsome
    have := Finset.card_lt_card hss
    rwa [Finset.card_range] at this

/-! ## The table is the map -/

/-- `Create` on a table that agrees: it is refused, or a free slot gets the new semaphore. -/
theorem create_cases (ha : t.Agrees) (name : Name) (init : ℤ) :
    t.create name init = some (some (-1), t) ∧
        t.toMap.create name init = (some (-1), t.toMap) ∨
      ∃ t' : STable, t.create name init = (if name.length < nameSize then some (none, t') else none) ∧
        t.toMap.create name init = (none, t'.toMap) ∧ t'.Agrees := by
  rcases ha.lookup_cases name with ⟨i, s, hs, hn, hf⟩ | ⟨hall, hf⟩
  · refine Or.inl ⟨by rw [create, hf], if_neg ?_⟩
    rintro ⟨hnone, _⟩
    exact (find_eq_none ha).mp hnone i s hs hn
  · have hnone : t.find name = none := (find_eq_none ha).mpr hall
    rcases t.bm.find_cases with ⟨hc, hfind⟩ | ⟨x, hx, hb, hfind⟩
    · refine Or.inl ⟨?_, if_neg ?_⟩
      · rw [create, hf]
        simp [hfind]
      · rintro ⟨_, hlt⟩
        exact (size_lt_iff ha).mp hlt hc
    · have hx' : x < maxSemaphore := ha.numBits ▸ hx
      have hfree : t.semTab x = none := ha.none_of_clear hx' hb
      have hroom : t.size < maxSemaphore := by
        refine (size_lt_iff ha).mpr fun hc => ?_
        have hmem : x ∈ t.bm.clearBits := BitMap.mem_clearBits.mpr ⟨hx, hb⟩
        rw [hc] at hmem
        exact absurd hmem List.not_mem_nil
      have hadd := ha.addSem hx' { name := name, sem := Semaphore.new init } hall
      refine Or.inr ⟨_, ?_, ?_, hadd⟩
      · rw [create, hf]
        simp only [hfind]
        rw [if_neg (by omega)]
        rfl
      · have hout : x ∉ t.used := fun hu => by
          have hsome := (mem_used.mp hu).2
          rw [hfree] at hsome
          cases hsome
        rw [SemMap.create, if_pos ⟨hnone, hroom⟩]
        simp only [toMap, SemMap.set, size]
        rw [used_setSem hx', Finset.card_insert_of_notMem hout, find_setSem ha hadd]
        intro s' hs'
        rw [hfree] at hs'
        cases hs'

theorem create_spec (ha : t.Agrees) {init : ℤ} {r : Option ℤ} {t' : STable}
    (h : t.create name init = some (r, t')) :
    t.toMap.create name init = (r, t'.toMap) ∧ t'.Agrees ∧ (r ≠ none → t' = t) := by
  rcases create_cases ha name init with ⟨hc, hmap⟩ | ⟨t₁, hc, hmap, hagrees⟩
  · rw [hc] at h
    cases h
    exact ⟨hmap, ha, fun _ => rfl⟩
  · rw [hc] at h
    split at h
    · cases h
      exact ⟨hmap, hagrees, fun hr => absurd rfl hr⟩
    · cases h

/-- `Create` is defined for a name that fits into the array. -/
theorem create_isSome (ha : t.Agrees) (init : ℤ) (hlen : name.length < nameSize) :
    ∃ r t', t.create name init = some (r, t') := by
  rcases create_cases ha name init with ⟨hc, _⟩ | ⟨t₁, hc, _⟩
  · exact ⟨_, _, hc⟩
  · exact ⟨_, _, hc.trans (if_pos hlen)⟩

/-- A semaphore in the table is replaced. -/
theorem toMap_setSem (ha : t.Agrees) {i : ℕ} {s : Sem} (h : t.semTab i = some s) (x : Semaphore) :
    (t.setSem i { s with sem := x }).toMap = t.toMap.set s.name x := by
  have hin : i ∈ t.used := mem_used.mpr ⟨ha.lt_of_some h, by rw [h]; rfl⟩
  have hused : (t.setSem i { s with sem := x }).used = t.used := by
    rw [← Finset.insert_eq_of_mem hin]
    exact used_setSem (b := t.bm) (ha.lt_of_some h)
  have hfind := find_setSem ha (b := t.bm) (ha.setSem h x) fun s' hs' => by
    rw [h] at hs'
    cases hs'
    rfl
  simp only [toMap, SemMap.set, size, hused]
  exact congrArg (fun f => SemMap.mk f _) hfind

/-- A round of `P` on a semaphore in the table. -/
theorem waitRound_spec (ha : t.Agrees) {u i : ℕ} {s : Sem} (h : t.semTab i = some s) :
    t.toMap.wait u s.name = ((t.waitRound u i s).1, (t.waitRound u i s).2.toMap) ∧
      (t.waitRound u i s).2.Agrees := by
  have hfind : t.toMap.entries s.name = some s.sem := (find_eq_some ha).mpr ⟨i, h⟩
  constructor
  · rw [SemMap.wait, hfind]
    simp only [waitRound, toMap_setSem ha h]
  · exact ha.setSem h _

/-- `Wait` on a table that agrees. -/
theorem wait_spec (ha : t.Agrees) (thread : ℕ) (name : Name) :
    ∃ r t', t.wait thread name = some (r, t') ∧ t.toMap.wait thread name = (r, t'.toMap) ∧
      t'.Agrees ∧ (r = some (-1) → t' = t) := by
  rcases ha.lookup_cases name with ⟨i, s, hs, rfl, hf⟩ | ⟨hall, hf⟩
  · obtain ⟨hmap, hagrees⟩ := waitRound_spec ha (u := thread) hs
    refine ⟨_, _, by rw [wait, hf], hmap, hagrees, fun h => ?_⟩
    exfalso
    simp only [waitRound] at h
    split at h <;> cases h
  · have hnone : t.toMap.entries name = none := (find_eq_none ha).mpr hall
    exact ⟨some (-1), t, by rw [wait, hf], by rw [SemMap.wait, hnone], ha, fun _ => rfl⟩

/-- `Signal` on a table that agrees. -/
theorem signal_spec (ha : t.Agrees) (name : Name) :
    ∃ r t', t.signal name = some (r, t') ∧ t.toMap.signal name = (r, t'.toMap) ∧
      t'.Agrees ∧ (r = -1 → t' = t) := by
  rcases ha.lookup_cases name with ⟨i, s, hs, rfl, hf⟩ | ⟨hall, hf⟩
  · have hfind : t.toMap.entries s.name = some s.sem := (find_eq_some ha).mpr ⟨i, hs⟩
    refine ⟨0, _, by rw [signal, hf], ?_, ha.setSem hs _, fun h => absurd h (by decide)⟩
    rw [SemMap.signal, hfind]
    simp only [toMap_setSem ha hs]
  · have hnone : t.toMap.entries name = none := (find_eq_none ha).mpr hall
    exact ⟨-1, t, by rw [signal, hf], by rw [SemMap.signal, hnone], ha, fun _ => rfl⟩

end STable

/-! ## Runs -/

/-- The table, the threads in `P` on the semaphore of a slot that `V` has made ready, and the calls
of `SC_Down` and `SC_Up` for a name that have returned 0. -/
structure SemTable where
  tab : STable
  woken : ℕ → List ℕ
  downs : Name → ℕ
  ups : Name → ℕ

inductive SemCall where
  | create (name : Name) (init : ℤ)
  | wait (thread : ℕ) (name : Name)
  /-- A woken thread runs again in `P` on the semaphore of slot `i`. -/
  | resume (thread i : ℕ)
  | signal (name : Name)
  deriving DecidableEq, Repr

namespace SemTable

def Init (s : SemTable) : Prop :=
  ∃ words, s = { tab := STable.new words, woken := fun _ => [], downs := fun _ => 0,
                 ups := fun _ => 0 }

/-- A thread in `P` is on the queue of a semaphore, or was taken off it by `V`. -/
def inP (s : SemTable) (thread : ℕ) : Bool :=
  (List.range maxSemaphore).any fun i =>
    (s.woken i).contains thread || (s.tab.semTab i).any fun x => x.sem.queue.contains thread

/-- A call for `name` returned `r`. -/
def count (calls : Name → ℕ) (name : Name) (r : Option ℤ) : Name → ℕ :=
  if r = some 0 then Function.update calls name (calls name + 1) else calls

/-- The thread that `Signal` takes off the queue of slot `i`. -/
def wakes (s : SemTable) (name : Name) (i : ℕ) : List ℕ :=
  match s.tab.lookup name with
  | .found j x => if i = j then x.sem.queue.head?.toList else []
  | _ => []

def step (s : SemTable) : SemCall → Option SemTable
  | .create name init => (s.tab.create name init).map fun (_, tab) => { s with tab := tab }
  | .wait thread name =>
    if s.inP thread then none
    else (s.tab.wait thread name).map fun (r, tab) =>
      { s with tab := tab, downs := count s.downs name r }
  | .resume thread i =>
    if thread ∈ s.woken i then
      (s.tab.semTab i).map fun x =>
        { s with
          tab := (s.tab.waitRound thread i x).2
          woken := Function.update s.woken i ((s.woken i).erase thread)
          downs := count s.downs x.name (s.tab.waitRound thread i x).1 }
    else none
  | .signal name => (s.tab.signal name).map fun (r, tab) =>
      { s with
        tab := tab
        woken := fun i => s.woken i ++ s.wakes name i
        ups := count s.ups name (some r) }

/-- What a step does to the map and to the counts. -/
def Moves (s s' : SemTable) (l : SemCall) : Prop :=
  (∃ name init r, l = .create name init ∧ s.tab.toMap.create name init = (r, s'.tab.toMap) ∧
    s'.downs = s.downs ∧ s'.ups = s.ups) ∨
  (∃ thread name r, s.tab.toMap.wait thread name = (r, s'.tab.toMap) ∧
    s'.downs = count s.downs name r ∧ s'.ups = s.ups) ∨
  (∃ name r, l = .signal name ∧ s.tab.toMap.signal name = (r, s'.tab.toMap) ∧
    s'.downs = s.downs ∧ s'.ups = count s.ups name (some r))

variable {s s' : SemTable}

theorem step_moves (ha : s.tab.Agrees) {l : SemCall} (h : s.step l = some s') :
    s'.tab.Agrees ∧ Moves s s' l := by
  cases l with
  | create name init =>
    simp only [step, Option.map_eq_some_iff] at h
    obtain ⟨⟨r, tab⟩, hc, rfl⟩ := h
    obtain ⟨hmap, hagrees, _⟩ := STable.create_spec ha hc
    exact ⟨hagrees, Or.inl ⟨name, init, r, rfl, hmap, rfl, rfl⟩⟩
  | wait thread name =>
    simp only [step] at h
    split at h
    · cases h
    · obtain ⟨r, tab, hw, hmap, hagrees, _⟩ := STable.wait_spec ha thread name
      rw [hw] at h
      cases h
      exact ⟨hagrees, Or.inr (Or.inl ⟨thread, name, r, hmap, rfl, rfl⟩)⟩
  | resume thread i =>
    simp only [step] at h
    split at h
    · obtain ⟨x, hx, rfl⟩ := Option.map_eq_some_iff.mp h
      obtain ⟨hmap, hagrees⟩ := STable.waitRound_spec ha (u := thread) hx
      exact ⟨hagrees, Or.inr (Or.inl ⟨thread, x.name, _, hmap, rfl, rfl⟩)⟩
    · cases h
  | signal name =>
    obtain ⟨r, tab, hs, hmap, hagrees, _⟩ := STable.signal_spec ha name
    simp only [step, hs] at h
    cases h
    exact ⟨hagrees, Or.inr (Or.inr ⟨name, r, rfl, hmap, rfl, rfl⟩)⟩

theorem agrees_of_init (h : Init s) : s.tab.Agrees := by
  obtain ⟨words, rfl⟩ := h
  exact STable.agrees_new words

theorem agrees_of_reach (h : Run.Reach step Init s) : s.tab.Agrees :=
  h.inv (fun s => s.tab.Agrees) (fun _ => agrees_of_init) fun _ _ _ ha hs => (step_moves ha hs).1

/-- In every state that calls of `Create`, `Wait` and `Signal` lead to, the array and the bitmap
agree, no name occurs twice, and each operation is the one of the map from names to semaphores; one
that returns `-1` changes nothing. -/
theorem semaphore_table_is_map (h : Run.Reach step Init s) :
    (∀ i < maxSemaphore, (s.tab.semTab i).isSome = s.tab.bm.test i) ∧
    (∀ i j a b, i ≠ j → s.tab.semTab i = some a → s.tab.semTab j = some b → a.name ≠ b.name) ∧
    (∀ name init, name.length < STable.nameSize → ∃ r t,
      s.tab.create name init = some (r, t) ∧ s.tab.toMap.create name init = (r, t.toMap) ∧
        (r = some (-1) → t = s.tab)) ∧
    (∀ thread name, ∃ r t,
      s.tab.wait thread name = some (r, t) ∧ s.tab.toMap.wait thread name = (r, t.toMap) ∧
        (r = some (-1) → t = s.tab)) ∧
    (∀ thread i x, s.tab.semTab i = some x → ∃ r t,
      s.tab.waitRound thread i x = (r, t) ∧ s.tab.toMap.wait thread x.name = (r, t.toMap)) ∧
    (∀ name, ∃ r t,
      s.tab.signal name = some (r, t) ∧ s.tab.toMap.signal name = (r, t.toMap) ∧
        (r = -1 → t = s.tab)) := by
  have ha := agrees_of_reach h
  refine ⟨fun i hi => (ha.bit i hi).symm, ?_, ?_, ?_, ?_, ?_⟩
  · intro i j a b hij hi hj hn
    exact hij (ha.distinct i j a b hi hj hn)
  · intro name init hlen
    obtain ⟨r, t, hc⟩ := STable.create_isSome ha init hlen
    obtain ⟨hmap, _, hsame⟩ := STable.create_spec ha hc
    refine ⟨r, t, hc, hmap, fun hr => hsame ?_⟩
    rw [hr]
    exact Option.some_ne_none _
  · intro thread name
    obtain ⟨r, t, hw, hmap, _, hsame⟩ := STable.wait_spec ha thread name
    exact ⟨r, t, hw, hmap, hsame⟩
  · intro thread i x hx
    exact ⟨_, _, rfl, (STable.waitRound_spec ha hx).1⟩
  · intro name
    obtain ⟨r, t, hs, hmap, _, hsame⟩ := STable.signal_spec ha name
    exact ⟨r, t, hs, hmap, hsame⟩

/-- The table at system start, with a bitmap on zeroed memory. -/
def start : SemTable where
  tab := STable.new fun _ => 0
  woken := fun _ => []
  downs := fun _ => 0
  ups := fun _ => 0

theorem init_start : Init start := ⟨_, rfl⟩

/-- A thread sleeps on the semaphore `a`, and a second `Create` of this name is refused. -/
theorem semaphore_table_is_map_sleeper :
    ∃ s, Run.exec step start [.create [97] 0, .wait 0 [97], .create [97] 5] = some s ∧
      s.tab.semTab 0 = some { name := [97], sem := { value := 0, queue := [0] } } ∧
      (∀ i < maxSemaphore, (s.tab.semTab i).isSome = s.tab.bm.test i) ∧
      ∃ r t, s.tab.signal [97] = some (r, t) ∧ s.tab.toMap.signal [97] = (r, t.toMap) ∧
        (r = -1 → t = s.tab) := by
  refine ⟨_, rfl, rfl, ?_, ?_⟩
  · exact (semaphore_table_is_map ⟨_, [.create [97] 0, .wait 0 [97], .create [97] 5], init_start, rfl⟩).1
  · exact (semaphore_table_is_map
      ⟨_, [.create [97] 0, .wait 0 [97], .create [97] 5], init_start, rfl⟩).2.2.2.2.2 [97]

/-! ## Counting -/

/-- No `V` finds the largest value of an `int`. -/
def InRange (s : SemTable) : SemCall → Prop
  | .signal name => ∀ x, s.tab.find name = some x → x.value < 2 ^ 31 - 1
  | _ => True

theorem count_other {name name' : Name} (h : name ≠ name') (calls : Name → ℕ) (r : Option ℤ) :
    count calls name' r name = calls name := by
  unfold count
  split
  · exact Function.update_of_ne h _ _
  · rfl

theorem count_zero (calls : Name → ℕ) (name : Name) :
    count calls name (some 0) name = calls name + 1 := by
  rw [count, if_pos rfl, Function.update_self]

theorem count_of_ne (calls : Name → ℕ) (name : Name) {r : Option ℤ} (h : r ≠ some 0) :
    count calls name r = calls := if_neg h

/-- What a step does to the value of a semaphore that exists and to the counts of its calls. -/
def Tallies (name : Name) (s s' : SemTable) (l : SemCall) (x x' : Semaphore) : Prop :=
  x'.value = x.value ∧ s'.downs name = s.downs name ∧ s'.ups name = s.ups name ∨
  x.value ≠ 0 ∧ x'.value = intPred x.value ∧ s'.downs name = s.downs name + 1 ∧
    s'.ups name = s.ups name ∨
  l = .signal name ∧ x'.value = intSucc x.value ∧ s'.downs name = s.downs name ∧
    s'.ups name = s.ups name + 1

theorem step_tallies (ha : s.tab.Agrees) {name : Name} {x : Semaphore}
    (hx : s.tab.toMap.entries name = some x) {l : SemCall} (h : s.step l = some s') :
    ∃ x', s'.tab.find name = some x' ∧ Tallies name s s' l x x' := by
  rcases (step_moves ha h).2 with ⟨n, init, r, _, hmap, hd, hu⟩ | ⟨thread, n, r, hmap, hd, hu⟩ |
    ⟨n, r, hl, hmap, hd, hu⟩
  · have hsame := @SemMap.create_entries _ _ n _ hx init
    rw [hmap] at hsame
    exact ⟨x, hsame, Or.inl ⟨rfl, by rw [hd], by rw [hu]⟩⟩
  · by_cases hn : name = n
    · subst hn
      rw [SemMap.wait_some hx] at hmap
      obtain ⟨hr, hm⟩ := Prod.mk.inj hmap
      have hfind : s'.tab.find name = some (x.P thread).1 := by
        show s'.tab.toMap.entries name = _
        rw [← hm, SemMap.set_same]
      by_cases hz : x.value = 0
      · rw [Semaphore.P_zero hz] at hr hfind
        rw [count_of_ne _ _ (by rw [← hr]; exact nofun)] at hd
        exact ⟨_, hfind, Or.inl ⟨rfl, by rw [hd], by rw [hu]⟩⟩
      · rw [Semaphore.P_pos hz] at hr hfind
        refine ⟨_, hfind, Or.inr (Or.inl ⟨hz, rfl, ?_, by rw [hu]⟩)⟩
        rw [hd, ← hr, if_pos rfl, count_zero]
    · have hsame := SemMap.wait_other (m := s.tab.toMap) hn thread
      rw [hmap] at hsame
      exact ⟨x, hsame.trans hx, Or.inl ⟨rfl, by rw [hd, count_other hn], by rw [hu]⟩⟩
  · by_cases hn : name = n
    · subst hn
      rw [SemMap.signal_some hx] at hmap
      obtain ⟨hr, hm⟩ := Prod.mk.inj hmap
      have hfind : s'.tab.find name = some x.V := by
        show s'.tab.toMap.entries name = _
        rw [← hm, SemMap.set_same]
      refine ⟨_, hfind, Or.inr (Or.inr ⟨hl, rfl, by rw [hd], ?_⟩)⟩
      rw [hu, ← hr, count_zero]
    · have hsame := SemMap.signal_other (m := s.tab.toMap) hn
      rw [hmap] at hsame
      exact ⟨x, hsame.trans hx, Or.inl ⟨rfl, by rw [hd], by rw [hu, count_other hn]⟩⟩

/-- The semaphore `name` counts the calls since it was created with `semval`. -/
structure Counts (name : Name) (semval : ℤ) (s : SemTable) : Prop where
  agrees : s.tab.Agrees
  counted : ∃ x, s.tab.find name = some x ∧ x.value = semval + s.ups name - s.downs name ∧
    0 ≤ x.value

theorem Counts.step {name : Name} {semval : ℤ} (hi : Counts name semval s) {l : SemCall}
    (hok : s.InRange l) (h : s.step l = some s') : Counts name semval s' := by
  obtain ⟨ha, x, hx, hv, h0⟩ := hi
  obtain ⟨x', hx', ht⟩ := step_tallies ha hx h
  refine ⟨(step_moves ha h).1, x', hx', ?_⟩
  rcases ht with ⟨e, hd, hu⟩ | ⟨hne, e, hd, hu⟩ | ⟨rfl, e, hd, hu⟩
  · rw [e, hd, hu]
    exact ⟨hv, h0⟩
  · rw [e, hd, hu, intPred_of_nonneg h0]
    omega
  · rw [e, hd, hu, intSucc_of_lt (hok x hx)]
    omega

/-- No call for a name returns 0 before its semaphore exists. -/
structure Uncounted (name : Name) (s : SemTable) : Prop where
  agrees : s.tab.Agrees
  zero : s.tab.find name = none → s.ups name = 0 ∧ s.downs name = 0

theorem Uncounted.step {name : Name} (hi : Uncounted name s) {l : SemCall}
    (h : s.step l = some s') : Uncounted name s' := by
  obtain ⟨ha, hz⟩ := hi
  obtain ⟨ha', hmoves⟩ := step_moves ha h
  refine ⟨ha', fun hnone => ?_⟩
  cases hx : s.tab.find name with
  | some x =>
    obtain ⟨x', hx', _⟩ := step_tallies ha hx h
    rw [hnone] at hx'
    cases hx'
  | none =>
    have hx' : s.tab.toMap.entries name = none := hx
    obtain ⟨hu0, hd0⟩ := hz hx
    rcases hmoves with ⟨n, init, r, _, _, hd, hu⟩ | ⟨thread, n, r, hmap, hd, hu⟩ |
      ⟨n, r, _, hmap, hd, hu⟩
    · rw [hd, hu]
      exact ⟨hu0, hd0⟩
    · rw [hd, hu]
      by_cases hn : name = n
      · subst hn
        rw [SemMap.wait_none hx'] at hmap
        rw [← (Prod.mk.inj hmap).1, count_of_ne _ _ (by decide)]
        exact ⟨hu0, hd0⟩
      · rw [count_other hn]
        exact ⟨hu0, hd0⟩
    · rw [hd, hu]
      by_cases hn : name = n
      · subst hn
        rw [SemMap.signal_none hx'] at hmap
        rw [← (Prod.mk.inj hmap).1, count_of_ne _ _ (by decide)]
        exact ⟨hu0, hd0⟩
      · rw [count_other hn]
        exact ⟨hu0, hd0⟩

theorem uncounted_of_reach (name : Name) (h : Run.Reach step Init s) : Uncounted name s := by
  apply h.inv (Uncounted name)
  · intro s hs
    refine ⟨agrees_of_init hs, fun _ => ?_⟩
    obtain ⟨words, rfl⟩ := hs
    exact ⟨rfl, rfl⟩
  · exact fun _ _ _ hi hs => hi.step hs

/-- `SC_CreateSemaphore` with a new name and room in the table. -/
structure Created (name : Name) (semval : ℤ) (s₀ s₁ : SemTable) : Prop where
  reach : Run.Reach step Init s₀
  step : s₀.step (.create name semval) = some s₁
  new : s₀.tab.find name = none
  made : s₁.tab.find name ≠ none

theorem Created.counts {name : Name} {semval : ℤ} (h : Created name semval s s') :
    s'.tab.find name = some (Semaphore.new semval) ∧ (0 ≤ semval → Counts name semval s') := by
  have ha := agrees_of_reach h.reach
  obtain ⟨hu, hd⟩ := (uncounted_of_reach name h.reach).zero h.new
  have hstep := h.step
  simp only [SemTable.step, Option.map_eq_some_iff] at hstep
  obtain ⟨⟨r, tab⟩, hc, rfl⟩ := hstep
  obtain ⟨hmap, ha', _⟩ := STable.create_spec ha hc
  have hfind : tab.find name = some (Semaphore.new semval) := by
    rw [SemMap.create] at hmap
    split at hmap
    · have hm := (Prod.mk.inj hmap).2
      show tab.toMap.entries name = _
      rw [← hm]
      exact SemMap.set_same _ name _
    · have hm := (Prod.mk.inj hmap).2
      refine absurd ?_ h.made
      show tab.toMap.entries name = none
      rw [← hm]
      exact h.new
  refine ⟨hfind, fun h0 => ⟨ha', _, hfind, ?_, h0⟩⟩
  show semval = semval + (s.ups name : ℤ) - s.downs name
  rw [hu, hd]
  omega

/-- A user semaphore counts correctly in every run without overflow exactly if it was not created
with a negative value: `P` stops a thread at the value 0 only. -/
theorem user_semaphore_counts_iff {name : Name} {semval : ℤ} {s₀ s₁ : SemTable}
    (h : Created name semval s₀ s₁) :
    (∀ ls s, Run.Admits step InRange s₁ ls → Run.exec step s₁ ls = some s →
      ∃ x, s.tab.find name = some x ∧ 0 ≤ x.value ∧
        (s.downs name : ℤ) ≤ semval + s.ups name) ↔ 0 ≤ semval := by
  obtain ⟨hfind, hcounts⟩ := h.counts
  constructor
  · intro hall
    obtain ⟨x, hx, h0, _⟩ := hall [] s₁ trivial rfl
    rw [hfind] at hx
    cases hx
    exact h0
  · intro hs ls s had he
    have hi : Counts name semval s :=
      Run.exec_inv (fun _ _ _ hi hok hstep => hi.step hok hstep) ls s₁ s (hcounts hs) had he
    obtain ⟨x, hx, hv, h0⟩ := hi.counted
    exact ⟨x, hx, h0, by omega⟩

/-- The table after `SC_CreateSemaphore` of the name `a` at system start. -/
def startWith (semval : ℤ) : SemTable where
  tab := ((start.tab.create [97] semval).getD (none, start.tab)).2
  woken := fun _ => []
  downs := fun _ => 0
  ups := fun _ => 0

theorem created_one : Created [97] 1 start (startWith 1) :=
  ⟨⟨_, [], init_start, rfl⟩, rfl, rfl, by decide⟩

theorem created_negative : Created [97] (-1) start (startWith (-1)) :=
  ⟨⟨_, [], init_start, rfl⟩, rfl, rfl, by decide⟩

/-- Created with 1, up to the second `SC_Down`, which sleeps. -/
theorem user_semaphore_counts_one :
    Created [97] 1 start (startWith 1) ∧
      ∀ s, Run.exec step (startWith 1) [.wait 0 [97], .wait 1 [97]] = some s →
        ∃ x, s.tab.find [97] = some x ∧ 0 ≤ x.value ∧ (s.downs [97] : ℤ) ≤ 1 + s.ups [97] := by
  refine ⟨created_one, fun s he => ?_⟩
  apply (user_semaphore_counts_iff created_one).mpr (by decide) _ s _ he
  exact ⟨trivial, fun _ _ => ⟨trivial, fun _ _ => trivial⟩⟩

/-- Created with -1, the semaphore is negative, and the first `SC_Down` returns without any
`SC_Up`. -/
theorem negative_semaphore_lets_down_pass :
    ∃ s, Created [97] (-1) start (startWith (-1)) ∧
      Run.Admits step InRange (startWith (-1)) [.wait 0 [97]] ∧
      Run.exec step (startWith (-1)) [.wait 0 [97]] = some s ∧
      s.tab.find [97] = some { value := -2, queue := [] } ∧
      ¬ (s.downs [97] : ℤ) ≤ -1 + s.ups [97] :=
  ⟨_, created_negative, ⟨trivial, fun _ _ => trivial⟩, rfl, rfl, by decide⟩

end SemTable

/-! ## The handlers

What `SC_CreateSemaphore`, `SC_Up` and `SC_Down` do with the table. -/

open Prog

theorem stableSignal_run (k : Kernel) (name : Name) :
    (stableSignal name).run k =
      match k.semTab.lookup name, k.semTab.signal name with
      | .found i _, some (r, t) => .done r { k with semTab := t, semLog := k.semLog ++ [.V i] }
      | _, some (r, t) => .done r { k with semTab := t, printed := k.printed ++ [.semMissing] }
      | _, none => .stop (.down .undefined) := by
  unfold stableSignal STable.signal
  rw [run_bind, run_look, Res.bind_done]
  cases k.semTab.lookup name <;> rfl

theorem STable.lookupFrom_found {t : STable} {name : Name} {is : List ℕ} {i : ℕ} {s : Sem}
    (h : t.lookupFrom name is = .found i s) : t.semTab i = some s := by
  induction is with
  | nil => cases h
  | cons j is ih =>
    unfold lookupFrom at h
    split at h
    · split at h
      · cases h
      · rename_i s' hs'
        split_ifs at h
        · cases h
          exact hs'
        · exact ih h
    · exact ih h

/-- The log tells what became of the table. -/
def Kernel.Logged (k k' : Kernel) : Prop :=
  ∃ events, k'.semLog = k.semLog ++ events ∧ k'.semTab = events.foldl STable.after k.semTab

theorem all_stableSignal_logged (k : Kernel) (name : Name) :
    All Serves (fun _ k' => k.Logged k') ((stableSignal name).run k) := by
  unfold stableSignal
  rw [run_bind, run_look, Res.bind_done]
  rcases hl : k.semTab.lookup name with ⟨i, s⟩ | _ | _
  · refine ⟨[.V i], rfl, ?_⟩
    show _ = (k.semTab.semTab i).elim k.semTab _
    rw [STable.lookupFrom_found hl]
    rfl
  · exact ⟨[], (List.append_nil _).symm, rfl⟩
  · trivial

theorem all_stableWait_logged (k : Kernel) (name : Name) :
    All Serves (fun _ k' => k.Logged k') ((stableWait name).run k) := by
  unfold stableWait
  rw [run_bind, run_look, Res.bind_done]
  cases k.semTab.lookup name with
  | undefined => trivial
  | missing => exact ⟨[], (List.append_nil _).symm, rfl⟩
  | found i x =>
    rintro _ k' ⟨_, events, hlog, htab, _⟩
    refine ⟨events ++ [.returned k.thread i], hlog, ?_⟩
    rw [List.foldl_concat]
    exact htab

theorem all_stableCreate_logged (k : Kernel) (name : Name) (init : ℤ) :
    All Serves (fun _ k' => k.Logged k') ((stableCreate name init).run k) := by
  unfold stableCreate
  rw [run_bind, run_look, Res.bind_done]
  cases k.semTab.lookup name with
  | undefined => trivial
  | found i x => exact ⟨[], (List.append_nil _).symm, rfl⟩
  | missing =>
    rintro freeSpace k₁ rfl
    show All Serves _ (Prog.run _ _)
    rw [run_ite, run_ite]
    split_ifs
    · exact ⟨[.findFreeSlot], rfl, rfl⟩
    · rintro r k₂ rfl
      exact ⟨[.findFreeSlot, .create freeSpace.toNat _], List.append_assoc _ _ _, rfl⟩
    · trivial

/-- `Wait` returns `-1` at once, or 0 after a round of `P` by which the thread got through. Where
`Create` took the slot while it waited, this round is not in the table. -/
theorem all_stableWait (k : Kernel) (name : Name) :
    All Serves (fun r k' =>
        k.semTab.wait k.thread name = some (some r, k'.semTab) ∧ r = -1 ∨
        ∃ i x, k.semTab.lookup name = .found i x ∧ r = 0 ∧
          ((∃ s, .create i s ∈ k'.semLog.drop k.semLog.length) ∨
            ∃ (y : Sem) (t : STable), t.semTab i = some y ∧
              (some r, k'.semTab) = t.waitRound k.thread i y))
      ((stableWait name).run k) := by
  unfold stableWait STable.wait
  rw [run_bind, run_look, Res.bind_done]
  cases k.semTab.lookup name with
  | undefined => trivial
  | missing => exact Or.inl ⟨rfl, rfl⟩
  | found i x =>
    rintro _ k' ⟨_, events, hlog, htab, ⟨s, hs⟩ | ⟨before, q, rfl, hq, hne⟩⟩
    · refine Or.inr ⟨i, x, rfl, rfl, Or.inl ⟨s, ?_⟩⟩
      rw [hlog, List.drop_left]
      exact List.mem_append_left _ hs
    · refine Or.inr ⟨i, x, rfl, rfl, Or.inr ⟨q, before.foldl STable.after k.semTab, hq, ?_⟩⟩
      rw [STable.waitRound, htab, List.foldl_concat, STable.after, hq, Option.elim_some,
        Semaphore.P_pos hne]
      rfl

/-- `Create` with a new name, where `FindFreeSlot` yields what `Find` returned: the table is the one
of `STable.create`, and so is the result if there is one. -/
theorem stableCreate_run {k : Kernel} {name : Name} {init : ℤ} {r : Option ℤ} {t : STable}
    (ha : k.semTab.Agrees) (hnew : k.semTab.lookup name = .missing)
    (h : k.semTab.create name init = some (r, t)) :
    ∃ k₁ resume, (stableCreate name init).run k = .wait .arbitrary k₁ resume ∧
      resume k.semTab.bm.find.1 k₁ =
        match r with
        | some r => .done r
            { k with
              semTab := t
              semLog := k.semLog ++ [.findFreeSlot]
              printed := k.printed ++ [.semNoFreeSlot] }
        | none => .wait .arbitrary
            { k with
              semTab := t
              semLog := k.semLog ++ [.findFreeSlot] ++
                [.create k.semTab.bm.find.1.toNat { name := name, sem := Semaphore.new init }] }
            fun v k' => .done v k' := by
  unfold stableCreate
  rw [run_bind, run_look, Res.bind_done, hnew]
  refine ⟨_, _, rfl, ?_⟩
  rw [STable.create, hnew] at h
  rcases k.semTab.bm.find_cases with ⟨_, hfind⟩ | ⟨x, hx, _, hfind⟩
  · simp only [hfind] at h ⊢
    cases h
    rfl
  · have hneg : ¬ (x : ℤ) < 0 := by omega
    have hlt : (x : ℤ) < (maxSemaphore : ℕ) := by
      rw [ha.numBits] at hx
      exact_mod_cast hx
    simp only [hfind] at h ⊢
    rw [if_neg hneg] at h
    split at h
    · cases h
      rw [Res.bind_done, run_ite, if_neg hneg, run_ite, if_pos hlt]
      rfl
    · cases h

end Nachos
