import Mathlib.Algebra.Order.Ring.Int
import Nachos.Lib.Chain
import Nachos.Lib.Insert
import Nachos.Lib.Run

/-!
# Linked lists, `list.cc`

The elements of a list lie in a memory, each at an address that was free when `new ListElement` got
it; the memory may hold the elements of other lists too. An item is a `void *`, so it may be null.
`none` is the use of a null pointer or of an element that was deleted, or a loop that does not end
within its `fuel`.

The other lists of this development are lists of Lean. `list_represents` says that this is what a
`List` is: `Reference` has the items in order, `SortedInsert` is `Insert.insertBy`.
-/

namespace Nachos

/-- `class ListElement` -/
structure ListElement (α : Type) where
  next : Option ℕ
  key : ℤ
  item : Option α
  deriving DecidableEq, Repr

/-- `class List`, with the memory. -/
structure LinkedList (α : Type) where
  elements : ℕ → Option (ListElement α)
  first : Option ℕ
  last : Option ℕ
  /-- History: what `Remove` and `SortedRemove` have returned, with `*keyPtr` where it was set. -/
  removed : List (Option α × Option ℤ)

namespace LinkedList

variable {α : Type}

/-! ## The functions -/

/-- `List::List` -/
def new (elements : ℕ → Option (ListElement α)) : LinkedList α where
  elements := elements
  first := none
  last := none
  removed := []

def isEmpty (s : LinkedList α) : Bool := s.first.isNone

/-- `*ptr` -/
def element (s : LinkedList α) (ptr : Option ℕ) : Option (ListElement α) := ptr.bind s.elements

/-- `new ListElement(itemPtr, sortKey)` at the address `a` -/
def newElement (s : LinkedList α) (a : ℕ) (itemPtr : Option α) (sortKey : ℤ) : LinkedList α :=
  { s with elements :=
      Function.update s.elements a (some { next := none, key := sortKey, item := itemPtr }) }

/-- `ptr->next = next` -/
def setNext (s : LinkedList α) (ptr next : Option ℕ) : Option (LinkedList α) := do
  let a ← ptr
  let e ← s.elements a
  some { s with elements := Function.update s.elements a (some { e with next := next }) }

/-- `delete` -/
def delete (s : LinkedList α) (a : ℕ) : LinkedList α :=
  { s with elements := Function.update s.elements a none }

/-- The element at `a` becomes the only one. -/
def only (s : LinkedList α) (a : ℕ) : LinkedList α := { s with first := some a, last := some a }

/-- `List::Append`; the new element is at `a`, here and below. -/
def append (s : LinkedList α) (a : ℕ) (item : Option α) : Option (LinkedList α) :=
  let s := s.newElement a item 0
  if s.isEmpty then some (s.only a)
  else do
    let s ← s.setNext s.last (some a)
    some { s with last := some a }

/-- `List::Prepend` -/
def prepend (s : LinkedList α) (a : ℕ) (item : Option α) : Option (LinkedList α) :=
  let s := s.newElement a item 0
  if s.isEmpty then some (s.only a)
  else do
    let s ← s.setNext (some a) s.first
    some { s with first := some a }

/-- The loop of `SortedInsert` from `ptr` on: the element it stops at, with a larger key behind it,
or null when it gets to the end. -/
def findPlace (s : LinkedList α) (sortKey : ℤ) : ℕ → Option ℕ → Option (Option ℕ)
  | 0, _ => none
  | fuel + 1, ptr => do
    let e ← s.element ptr
    if e.next = none then some none
    else
      let behind ← s.element e.next
      if sortKey < behind.key then some ptr else s.findPlace sortKey fuel e.next

/-- `List::SortedInsert` -/
def sortedInsert (s : LinkedList α) (fuel a : ℕ) (item : Option α) (sortKey : ℤ) :
    Option (LinkedList α) :=
  let s := s.newElement a item sortKey
  if s.isEmpty then some (s.only a)
  else do
    let e ← s.element s.first
    if sortKey < e.key then
      let s ← s.setNext (some a) s.first
      some { s with first := some a }
    else
      let ptr ← s.findPlace sortKey fuel s.first
      if ptr = none then
        let s ← s.setNext s.last (some a)
        some { s with last := some a }
      else
        let e ← s.element ptr
        let s ← s.setNext (some a) e.next
        s.setNext ptr (some a)

/-- `List::SortedRemove`: the item, the key of its element, and the list. -/
def takeFirst (s : LinkedList α) : Option (Option α × Option ℤ × LinkedList α) :=
  if s.isEmpty then some (none, none, s)
  else do
    let a ← s.first
    let e ← s.elements a
    let s := if s.first = s.last then { s with first := none, last := none }
      else { s with first := e.next }
    some (e.item, some e.key, s.delete a)

/-- `List::SortedRemove` with a `keyPtr` that is not null -/
def sortedRemove (s : LinkedList α) : Option (LinkedList α) :=
  s.takeFirst.map fun (thing, key, s) => { s with removed := s.removed ++ [(thing, key)] }

/-- `List::Remove`, which is `SortedRemove(NULL)` -/
def remove (s : LinkedList α) : Option (LinkedList α) :=
  s.takeFirst.map fun (thing, _, s) => { s with removed := s.removed ++ [(thing, none)] }

/-- The calls, with the address that `new` yields. -/
inductive Call (α : Type) where
  | append (a : ℕ) (item : Option α)
  | prepend (a : ℕ) (item : Option α)
  | sortedInsert (a : ℕ) (item : Option α) (sortKey : ℤ)
  | remove
  | sortedRemove
  deriving DecidableEq, Repr

def step (fuel : ℕ) (s : LinkedList α) : Call α → Option (LinkedList α)
  | .append a item => s.append a item
  | .prepend a item => s.prepend a item
  | .sortedInsert a item sortKey => s.sortedInsert fuel a item sortKey
  | .remove => s.remove
  | .sortedRemove => s.sortedRemove

/-- `new` yields an address that is not in use. -/
def Fresh (s : LinkedList α) : Call α → Prop
  | .append a _ | .prepend a _ | .sortedInsert a _ _ => s.elements a = none
  | .remove | .sortedRemove => True

instance [DecidableEq α] (s : LinkedList α) (l : Call α) : Decidable (s.Fresh l) := by
  cases l <;> unfold Fresh <;> infer_instance

/-! ## The sequence it stands for -/

/-- An item with its key; `stamp` is history, the number of items that were there before. -/
structure Entry (α : Type) where
  item : Option α
  key : ℤ
  stamp : ℕ
  deriving DecidableEq, Repr

structure Reference (α : Type) where
  entries : List (Entry α)
  made : ℕ
  removed : List (Option α × Option ℤ)

namespace Reference

def empty : Reference α where
  entries := []
  made := 0
  removed := []

/-- The next item. -/
def entry (r : Reference α) (item : Option α) (key : ℤ) : Entry α := ⟨item, key, r.made⟩

/-- The entries with a new one among them. -/
def put (r : Reference α) (entries : List (Entry α)) : Reference α :=
  { r with entries := entries, made := r.made + 1 }

/-- The front is taken off; the key is told where it is asked for. -/
def take (r : Reference α) (withKey : Bool) : Reference α :=
  match r.entries with
  | [] => { r with removed := r.removed ++ [(none, none)] }
  | x :: entries =>
    { r with entries := entries
             removed := r.removed ++ [(x.item, if withKey then some x.key else none)] }

theorem take_nil {r : Reference α} (h : r.entries = []) (withKey : Bool) :
    r.take withKey = { r with removed := r.removed ++ [(none, none)] } := by
  unfold take
  rw [h]

theorem take_cons {r : Reference α} {x : Entry α} {entries : List (Entry α)}
    (h : r.entries = x :: entries) (withKey : Bool) :
    r.take withKey = { r with
      entries := entries
      removed := r.removed ++ [(x.item, if withKey then some x.key else none)] } := by
  unfold take
  rw [h]

def next (r : Reference α) : Call α → Reference α
  | .append _ item => r.put (r.entries ++ [r.entry item 0])
  | .prepend _ item => r.put (r.entry item 0 :: r.entries)
  | .sortedInsert _ item key => r.put (Insert.insertBy Entry.key (r.entry item key) r.entries)
  | .remove => r.take false
  | .sortedRemove => r.take true

/-- The sequence after the calls. -/
def run (calls : List (Call α)) : Reference α := calls.foldl next empty

end Reference

/-! ## What a list represents -/

open Chain

/-- What counts of an element. -/
def data (c : ℕ × ListElement α) : Option α × ℤ := (c.2.item, c.2.key)

def Entry.data (x : Entry α) : Option α × ℤ := (x.item, x.key)

/-- The pointers lead from `first` over the cells to null, `last` is the last of them, and they hold
the items of the reference. The cells lie where nothing was before the list, and elsewhere the
memory is as it was then. -/
structure Represents (memory : ℕ → Option (ListElement α)) (s : LinkedList α)
    (cells : List (ℕ × ListElement α)) (r : Reference α) : Prop where
  path : Path ListElement.next s.elements s.first cells none
  last : s.last = cells.getLast?.map Prod.fst
  contents : cells.map data = r.entries.map Entry.data
  removed : s.removed = r.removed
  own : ∀ a ∈ addresses cells, memory a = none
  others : ∀ a, a ∉ addresses cells → s.elements a = memory a

section Steps

variable {memory : ℕ → Option (ListElement α)} {s s' : LinkedList α}
  {cells l₁ l₂ : List (ℕ × ListElement α)} {c : ℕ × ListElement α} {r : Reference α}
  {entries : List (Entry α)} {a : ℕ} {item : Option α} {key : ℤ} {fuel : ℕ}

theorem represents_new (memory : ℕ → Option (ListElement α)) :
    (new memory).Represents memory [] Reference.empty :=
  ⟨rfl, rfl, rfl, rfl, nofun, fun _ _ => rfl⟩

/-- Where a new element goes there was nothing before the list. -/
theorem Represents.free (hr : s.Represents memory cells r) (ha : s.elements a = none) :
    memory a = none := (hr.others a (hr.path.notMem ha)).symm.trans ha

theorem Represents.isEmpty_iff (hr : s.Represents memory cells r) :
    s.isEmpty = true ↔ cells = [] := by
  unfold isEmpty
  rw [hr.path.head]
  cases cells <;> simp

theorem element_first (h : Path ListElement.next s.elements s.first (c :: cells) none) :
    s.element s.first = some c.2 := by
  unfold element
  rw [h.1, Option.bind_some, h.2.1]

/-- `ptr->next = next` for an element in memory. -/
theorem setNext_eq {e : ListElement α} (he : s.elements a = some e) (next : Option ℕ) :
    s.setNext (some a) next = some { s with
      elements := Function.update s.elements a (some { e with next := next }) } := by
  unfold setNext
  simp only [Option.bind_eq_bind, Option.bind_some, he]

/-- The first element of an empty list. -/
theorem Represents.only (hr : s.Represents memory [] r) (ha : s.elements a = none)
    (hx : entries.map Entry.data = [(item, key)]) :
    ((s.newElement a item key).only a).Represents memory
      [(a, { next := none, key := key, item := item })] (r.put entries) := by
  refine ⟨⟨rfl, Function.update_self _ _ _, rfl⟩, rfl, hx.symm, hr.removed, fun b hb => ?_,
    fun b hb => ?_⟩
  · rw [List.mem_singleton.mp hb]
    exact hr.free ha
  have hne : b ≠ a := fun e => hb (e ▸ List.mem_cons_self)
  exact (Function.update_of_ne hne _ _).trans (hr.others b List.not_mem_nil)

/-- A new element in front. -/
theorem Represents.front (hr : s.Represents memory (c :: cells) r) (ha : s.elements a = none)
    (hx : entries.map Entry.data = (item, key) :: r.entries.map Entry.data) :
    ∃ s', (s.newElement a item key).setNext (some a) s.first = some s' ∧
      Represents memory { s' with first := some a }
        ((a, { next := s.first, key := key, item := item }) :: c :: cells) (r.put entries) := by
  have hnew : (s.newElement a item key).elements a =
      some { next := none, key := key, item := item } := Function.update_self _ _ _
  refine ⟨_, setNext_eq hnew s.first, ?_⟩
  have helements : Function.update (s.newElement a item key).elements a
      (some { next := s.first, key := key, item := item }) =
        Function.update s.elements a (some { next := s.first, key := key, item := item }) :=
    Function.update_idem _ _ _
  simp only [helements]
  refine ⟨hr.path.cons (hr.path.notMem ha) rfl, hr.last, ?_, hr.removed, fun b hb => ?_,
    fun b hb => ?_⟩
  · rw [List.map_cons, hr.contents]
    exact hx.symm
  · rcases List.mem_cons.mp hb with rfl | hb
    · exact hr.free ha
    · exact hr.own b hb
  · rw [addresses_cons, List.mem_cons, not_or] at hb
    exact (Function.update_of_ne hb.1 _ _).trans (hr.others b hb.2)

/-- A new element behind the cell `c`. -/
theorem Represents.behind (hr : s.Represents memory (l₁ ++ c :: l₂) r) (ha : s.elements a = none)
    (hx : entries.map Entry.data =
      (l₁ ++ [c]).map data ++ (item, key) :: l₂.map data) :
    Represents memory { s with
      elements := Function.update (Function.update s.elements a
        (some { next := c.2.next, key := key, item := item })) c.1
          (some { c.2 with next := some a })
      last := if l₂ = [] then some a else s.last }
      (l₁ ++ (c.1, { c.2 with next := some a }) ::
        (a, { next := c.2.next, key := key, item := item }) :: l₂) (r.put entries) := by
  have ha' := hr.path.notMem ha
  refine ⟨hr.path.insert ha' rfl rfl, ?_, ?_, hr.removed, fun b hb => ?_, fun b hb => ?_⟩
  · rcases List.eq_nil_or_concat l₂ with rfl | ⟨l₃, d, rfl⟩
    · simp
    · have hlast := hr.last
      rw [List.concat_eq_append] at hlast ⊢
      rw [if_neg (by simp)]
      simp only [hlast, ← List.cons_append, ← List.append_assoc, List.getLast?_concat]
  · show _ = entries.map Entry.data
    rw [hx]
    simp [data]
  · have hown := hr.own b
    rw [addresses_append, addresses_cons, List.mem_append, List.mem_cons] at hb hown
    rw [addresses_cons, List.mem_cons] at hb
    rcases hb with hb | rfl | rfl | hb
    · exact hown (Or.inl hb)
    · exact hown (Or.inr (Or.inl rfl))
    · exact hr.free ha
    · exact hown (Or.inr (Or.inr hb))
  · rw [addresses_append, addresses_cons, addresses_cons, List.mem_append, List.mem_cons,
      List.mem_cons, not_or, not_or, not_or] at hb
    obtain ⟨hb₁, hbc, hba, hb₂⟩ := hb
    refine (Function.update_of_ne hbc _ _).trans ((Function.update_of_ne hba _ _).trans
      (hr.others b ?_))
    rw [addresses_append, addresses_cons, List.mem_append, List.mem_cons, not_or, not_or]
    exact ⟨hb₁, hbc, hb₂⟩

/-- Where the loop of `SortedInsert` stops. -/
theorem findPlace_spec {sortKey : ℤ} (hle : c.2.key ≤ sortKey) (hf : cells.length < fuel)
    {ptr : Option ℕ} (h : Path ListElement.next s.elements ptr (c :: cells) none) :
    ∃ l₁ d l₂, c :: cells = l₁ ++ d :: l₂ ∧ (∀ b ∈ l₁ ++ [d], b.2.key ≤ sortKey) ∧
      (∀ b, l₂.head? = some b → sortKey < b.2.key) ∧
      s.findPlace sortKey fuel ptr = some (if l₂ = [] then none else some d.1) := by
  induction cells generalizing c ptr fuel with
  | nil =>
    obtain ⟨fuel, rfl⟩ : ∃ n, fuel = n + 1 := ⟨fuel - 1, by omega⟩
    obtain ⟨rfl, hc, hnext⟩ := h
    refine ⟨[], c, [], rfl, by simpa using hle, nofun, ?_⟩
    unfold findPlace element
    simp only [Option.bind_eq_bind, Option.bind_some, hc, path_nil.mp hnext, if_true]
  | cons d cells ih =>
    obtain ⟨fuel, rfl⟩ : ∃ n, fuel = n + 1 := ⟨fuel - 1, by omega⟩
    obtain ⟨rfl, hc, hnext⟩ := h
    have hstep : s.findPlace sortKey (fuel + 1) (some c.1) =
        if sortKey < d.2.key then some (some c.1) else s.findPlace sortKey fuel c.2.next := by
      rw [findPlace]
      unfold element
      simp only [Option.bind_eq_bind, Option.bind_some, hc, hnext.1, hnext.2.1, reduceCtorEq,
        if_false]
    rw [hstep]
    by_cases hlt : sortKey < d.2.key
    · refine ⟨[], c, d :: cells, rfl, by simpa using hle, ?_, by rw [if_pos hlt]; rfl⟩
      rintro b hb
      cases hb
      exact hlt
    · have hf' : cells.length < fuel := by
        rw [List.length_cons] at hf
        omega
      obtain ⟨l₁, d', l₂, hl, h₁, h₂, hres⟩ := ih (not_lt.mp hlt) hf' hnext
      refine ⟨c :: l₁, d', l₂, by rw [hl, List.cons_append], fun b hb => ?_, h₂, ?_⟩
      · rcases List.mem_cons.mp hb with rfl | hb
        · exact hle
        · exact h₁ b hb
      · rw [if_neg hlt, hres]

/-- The reference has the entries of both parts of the chain. -/
theorem Represents.split (hr : s.Represents memory (l₁ ++ l₂) r) :
    ∃ e₁ e₂, r.entries = e₁ ++ e₂ ∧ e₁.map Entry.data = l₁.map data ∧
      e₂.map Entry.data = l₂.map data := by
  have h := hr.contents.symm
  rw [List.map_append] at h
  obtain ⟨e₁, e₂, he, h₁, h₂⟩ := List.map_eq_append_iff.mp h
  exact ⟨e₁, e₂, he, h₁, h₂⟩

/-- Entries with the data of the cells have their keys. -/
theorem exists_cell {es : List (Entry α)} (h : es.map Entry.data = cells.map data) {x : Entry α}
    (hx : x ∈ es) : ∃ c ∈ cells, c.2.key = x.key := by
  have hmem : x.data ∈ cells.map data := h ▸ List.mem_map_of_mem hx
  obtain ⟨c, hc, he⟩ := List.mem_map.mp hmem
  exact ⟨c, hc, congrArg Prod.snd he⟩

theorem head_cell {es : List (Entry α)} (h : es.map Entry.data = cells.map data) {x : Entry α}
    (hx : es.head? = some x) : ∃ c, cells.head? = some c ∧ c.2.key = x.key := by
  have hhead := congrArg List.head? h
  rw [List.head?_map, List.head?_map, hx, Option.map_some] at hhead
  obtain ⟨c, hc, he⟩ := Option.map_eq_some_iff.mp hhead.symm
  exact ⟨c, hc, congrArg Prod.snd he⟩

/-- An element in the chain is where it was when a new one is made. -/
theorem Represents.cell_new (hr : s.Represents memory cells r) (ha : s.elements a = none)
    (hc : c ∈ cells) : (s.newElement a item key).elements c.1 = some c.2 := by
  have hcell := hr.path.cell hc
  have hne : c.1 ≠ a := by
    intro e
    rw [e, ha] at hcell
    cases hcell
  exact (Function.update_of_ne hne _ _).trans hcell

/-- A new element behind `c` and before another one. -/
theorem Represents.between (hr : s.Represents memory (l₁ ++ c :: l₂) r) (ha : s.elements a = none)
    (hl₂ : l₂ ≠ [])
    (hx : entries.map Entry.data = (l₁ ++ [c]).map data ++ (item, key) :: l₂.map data) :
    ∃ s₁ s' cells', (s.newElement a item key).setNext (some a) c.2.next = some s₁ ∧
      s₁.setNext (some c.1) (some a) = some s' ∧ Represents memory s' cells' (r.put entries) := by
  have hnew : (s.newElement a item key).elements a =
      some { next := none, key := key, item := item } := Function.update_self _ _ _
  have hmem : c ∈ l₁ ++ c :: l₂ := List.mem_append_right _ List.mem_cons_self
  have hne : c.1 ≠ a := fun e => hr.path.notMem ha (e ▸ List.mem_map_of_mem hmem)
  have h₁ : (s.newElement a item key).setNext (some a) c.2.next = some { s with
      elements := Function.update s.elements a
        (some { next := c.2.next, key := key, item := item }) } := by
    rw [setNext_eq hnew]
    simp only [newElement, Function.update_idem]
  have hc : Function.update s.elements a (some { next := c.2.next, key := key, item := item }) c.1 =
      some c.2 := (Function.update_of_ne hne _ _).trans (hr.path.cell hmem)
  have hb := hr.behind ha hx
  rw [if_neg hl₂] at hb
  exact ⟨_, _, _, h₁, setNext_eq hc (some a), hb⟩

/-- A new element at the end of a list that is not empty. -/
theorem Represents.atEnd (hr : s.Represents memory (l₁ ++ [c]) r) (ha : s.elements a = none)
    (hx : entries.map Entry.data = (l₁ ++ [c]).map data ++ [(item, key)]) :
    ∃ s' cells', (s.newElement a item key).setNext s.last (some a) = some s' ∧
      Represents memory { s' with last := some a } cells' (r.put entries) := by
  have hnext : c.2.next = none := by
    obtain ⟨mid, -, -, -, h⟩ := path_append.mp hr.path
    exact h
  have hlast : s.last = some c.1 := by rw [hr.last, List.getLast?_concat]; rfl
  have hc : (s.newElement a item key).elements c.1 = some c.2 :=
    hr.cell_new ha (List.mem_append_right _ List.mem_cons_self)
  have hx' : entries.map Entry.data =
      (l₁ ++ [c]).map data ++ (item, key) :: ([] : List _).map data := hx
  have hb := hr.behind ha hx'
  rw [hnext, if_pos rfl] at hb
  rw [hlast]
  exact ⟨_, _, setNext_eq hc (some a), hb⟩

theorem Represents.append (hr : s.Represents memory cells r) (ha : s.elements a = none) :
    ∃ s' cells', s.append a item = some s' ∧
      s'.Represents memory cells' (r.next (.append a item)) := by
  have hdata : (r.entries ++ [r.entry item 0]).map Entry.data = cells.map data ++ [(item, 0)] := by
    rw [List.map_append, hr.contents]
    rfl
  unfold LinkedList.append
  rcases List.eq_nil_or_concat cells with rfl | ⟨l₁, c, rfl⟩
  · have he : (s.newElement a item 0).isEmpty = true := hr.isEmpty_iff.mpr rfl
    exact ⟨_, _, if_pos he, hr.only ha hdata⟩
  · rw [List.concat_eq_append] at hr hdata
    have he : ¬ (s.newElement a item 0).isEmpty = true := fun he => by
      simpa using hr.isEmpty_iff.mp he
    obtain ⟨s', cells', hs', hrep⟩ := hr.atEnd ha hdata
    rw [if_neg he, show (s.newElement a item 0).last = s.last from rfl]
    simp only [Option.bind_eq_bind, hs', Option.bind_some]
    exact ⟨_, _, rfl, hrep⟩

theorem Represents.prepend (hr : s.Represents memory cells r) (ha : s.elements a = none) :
    ∃ s' cells', s.prepend a item = some s' ∧
      s'.Represents memory cells' (r.next (.prepend a item)) := by
  unfold LinkedList.prepend
  cases cells with
  | nil =>
    have he : (s.newElement a item 0).isEmpty = true := hr.isEmpty_iff.mpr rfl
    have hdata : (r.entry item 0 :: r.entries).map Entry.data = [(item, 0)] := by
      rw [List.map_cons, ← hr.contents]
      rfl
    exact ⟨_, _, if_pos he, hr.only ha hdata⟩
  | cons c cells =>
    have he : ¬ (s.newElement a item 0).isEmpty = true := fun he => by
      simpa using hr.isEmpty_iff.mp he
    have hdata : (r.entry item 0 :: r.entries).map Entry.data =
        (item, 0) :: r.entries.map Entry.data := rfl
    obtain ⟨s', hs', hrep⟩ := hr.front ha hdata
    rw [if_neg he, show (s.newElement a item 0).first = s.first from rfl]
    simp only [Option.bind_eq_bind, hs', Option.bind_some]
    exact ⟨_, _, rfl, hrep⟩

/-- The data of the reference with a new entry between the two parts. -/
theorem Represents.insert_data (hr : s.Represents memory (l₁ ++ l₂) r) (item : Option α)
    (h₁ : ∀ b ∈ l₁, b.2.key ≤ key) (h₂ : ∀ b, l₂.head? = some b → key < b.2.key) :
    (Insert.insertBy Entry.key (r.entry item key) r.entries).map Entry.data =
      l₁.map data ++ (item, key) :: l₂.map data := by
  obtain ⟨e₁, e₂, he, he₁, he₂⟩ := hr.split
  have hle : ∀ x ∈ e₁, Entry.key x ≤ Entry.key (r.entry item key) := fun x hx => by
    obtain ⟨c, hc, hkey⟩ := exists_cell he₁ hx
    rw [← hkey]
    exact h₁ c hc
  have hlt : ∀ x, e₂.head? = some x → Entry.key (r.entry item key) < Entry.key x := fun x hx => by
    obtain ⟨c, hc, hkey⟩ := head_cell he₂ hx
    rw [← hkey]
    exact h₂ c hc
  rw [he, Insert.insertBy_append hle hlt, List.map_append, List.map_cons, he₁, he₂]
  rfl

theorem Represents.sortedInsert (hr : s.Represents memory cells r) (ha : s.elements a = none)
    (hf : cells.length ≤ fuel) : ∃ s' cells', s.sortedInsert fuel a item key = some s' ∧
      s'.Represents memory cells' (r.next (.sortedInsert a item key)) := by
  unfold LinkedList.sortedInsert
  cases cells with
  | nil =>
    have he : (s.newElement a item key).isEmpty = true := hr.isEmpty_iff.mpr rfl
    have hdata : (Insert.insertBy Entry.key (r.entry item key) r.entries).map Entry.data =
        [(item, key)] :=
      Represents.insert_data (show s.Represents memory ([] ++ []) r from hr) item nofun nofun
    exact ⟨_, _, if_pos he, hr.only ha hdata⟩
  | cons c cells =>
    have he : ¬ (s.newElement a item key).isEmpty = true := fun he => by
      simpa using hr.isEmpty_iff.mp he
    have hpath : Path ListElement.next (s.newElement a item key).elements s.first (c :: cells)
        none := hr.path.update (hr.path.notMem ha) _
    have hfirst : (s.newElement a item key).element s.first = some c.2 := element_first hpath
    rw [if_neg he, show (s.newElement a item key).first = s.first from rfl]
    simp only [Option.bind_eq_bind, hfirst, Option.bind_some]
    by_cases hlt : key < c.2.key
    · -- in front of the first one
      have hr' : s.Represents memory ([] ++ c :: cells) r := hr
      have hdata := hr'.insert_data item nofun fun b hb => Option.some.inj hb ▸ hlt
      rw [List.map_nil, List.nil_append, hr.contents] at hdata
      obtain ⟨s', hs', hrep⟩ := hr.front ha hdata
      rw [if_pos hlt]
      simp only [hs', Option.bind_some]
      exact ⟨_, _, rfl, hrep⟩
    · obtain ⟨l₁, d, l₂, hl, hle, hhead, hplace⟩ := findPlace_spec (not_lt.mp hlt) hf hpath
      rw [if_neg hlt]
      simp only [hplace, Option.bind_some]
      rw [hl] at hr
      have hsplit : l₁ ++ d :: l₂ = (l₁ ++ [d]) ++ l₂ := by simp
      have hdata := Represents.insert_data (hsplit ▸ hr) item hle hhead
      by_cases hl₂ : l₂ = []
      · subst hl₂
        obtain ⟨s', cells', hs', hrep⟩ := hr.atEnd ha hdata
        rw [if_pos (if_pos rfl), show (s.newElement a item key).last = s.last from rfl]
        simp only [hs', Option.bind_some]
        exact ⟨_, _, rfl, hrep⟩
      · -- between `d` and the next one
        have hd : (s.newElement a item key).element (some d.1) = some d.2 :=
          hr.cell_new ha (List.mem_append_right _ List.mem_cons_self)
        obtain ⟨s₁, s', cells', h₁, h₂, hrep⟩ := hr.between ha hl₂ hdata
        rw [if_neg hl₂, if_neg (Option.some_ne_none d.1)]
        simp only [hd, Option.bind_some, h₁, h₂]
        exact ⟨_, _, rfl, hrep⟩

/-! ## Taking the front off -/

theorem Represents.takeFirst_nil (hr : s.Represents memory [] r) :
    s.takeFirst = some (none, none, s) ∧ r.entries = [] := by
  refine ⟨if_pos (hr.isEmpty_iff.mpr rfl), ?_⟩
  exact List.map_eq_nil_iff.mp hr.contents.symm

theorem Represents.takeFirst_cons (hr : s.Represents memory (c :: cells) r) :
    ∃ s' x entries, r.entries = x :: entries ∧ s.takeFirst = some (x.item, some x.key, s') ∧
      s'.removed = s.removed ∧ ∀ removed, Represents memory { s' with removed := removed } cells
        { r with entries := entries, removed := removed } := by
  obtain ⟨hfirst, hcell, hnext⟩ := hr.path
  have he : ¬ s.isEmpty = true := fun he => by simpa using hr.isEmpty_iff.mp he
  obtain ⟨x, entries, hentries⟩ : ∃ x entries, r.entries = x :: entries := by
    cases hx : r.entries with
    | nil =>
      have hc := hr.contents
      rw [hx] at hc
      cases hc
    | cons x entries => exact ⟨x, entries, rfl⟩
  have hcontents := hr.contents
  rw [hentries, List.map_cons, List.map_cons, List.cons.injEq] at hcontents
  obtain ⟨hdata, htail⟩ := hcontents
  obtain ⟨hitem, hkey⟩ := Prod.mk.injEq .. ▸ hdata
  have hdelete : ∀ b, b ∉ addresses cells → Function.update s.elements c.1 none b = memory b := by
    intro b hb
    by_cases hbc : b = c.1
    · rw [hbc, Function.update_self, hr.own c.1 List.mem_cons_self]
    · rw [Function.update_of_ne hbc]
      exact hr.others b (by simp [hbc, hb])
  have hpath := hr.path.tail none
  have hown : ∀ b ∈ addresses cells, memory b = none := fun b hb =>
    hr.own b (List.mem_cons_of_mem _ hb)
  have htake : s.takeFirst = some (x.item, some x.key,
      (if s.first = s.last then { s with first := none, last := none }
        else { s with first := c.2.next }).delete c.1) := by
    unfold takeFirst
    rw [if_neg he]
    simp only [Option.bind_eq_bind, hfirst, Option.bind_some, hcell]
    rw [← hitem, ← hkey]
  refine ⟨_, x, entries, hentries, htake, by split_ifs <;> rfl, fun removed => ?_⟩
  cases cells with
  | nil =>
    have hlast : s.first = s.last := by rw [hr.last, hfirst]; rfl
    rw [if_pos hlast]
    exact ⟨rfl, rfl, htail, rfl, hown, hdelete⟩
  | cons d cells =>
    have hlast : s.first ≠ s.last := by
      rw [hr.last, hfirst, List.getLast?_cons_cons]
      intro e
      obtain ⟨d', hd', he'⟩ := Option.map_eq_some_iff.mp e.symm
      have hmem := List.mem_map_of_mem (f := Prod.fst) (List.mem_of_getLast? hd')
      exact (List.nodup_cons.mp hr.path.nodup).1 (he' ▸ hmem)
    rw [if_neg hlast]
    exact ⟨hpath, by rw [← List.getLast?_cons_cons]; exact hr.last, htail, rfl, hown, hdelete⟩

/-! ## Any calls -/

theorem Represents.take (hr : s.Represents memory cells r) (withKey : Bool) : ∃ s' cells',
    (s.takeFirst.map fun (thing, key, s) =>
      { s with removed := s.removed ++ [(thing, if withKey then key else none)] }) = some s' ∧
      Represents memory s' cells' (r.take withKey) := by
  cases cells with
  | nil =>
    obtain ⟨htake, hentries⟩ := hr.takeFirst_nil
    refine ⟨_, [], by rw [htake]; rfl, ?_⟩
    rw [Reference.take_nil hentries]
    refine ⟨hr.path, hr.last, hr.contents, ?_, hr.own, hr.others⟩
    show s.removed ++ _ = r.removed ++ _
    rw [hr.removed]
    simp
  | cons c cells =>
    obtain ⟨s₁, x, entries, hentries, htake, hremoved, hrep⟩ := hr.takeFirst_cons
    refine ⟨_, cells, by rw [htake]; rfl, ?_⟩
    rw [Reference.take_cons hentries, ← hr.removed, ← hremoved]
    exact hrep _

/-- One call, with room for the elements in the fuel. -/
theorem Represents.step {call : Call α} (hr : s.Represents memory cells r)
    (hf : r.entries.length ≤ fuel) (hc : s.Fresh call) :
    ∃ s' cells', s.step fuel call = some s' ∧ s'.Represents memory cells' (r.next call) := by
  cases call with
  | append a item => exact hr.append hc
  | prepend a item => exact hr.prepend hc
  | sortedInsert a item key =>
    have hlen := congrArg List.length hr.contents
    rw [List.length_map, List.length_map] at hlen
    exact hr.sortedInsert hc (hlen ▸ hf)
  | remove => exact hr.take false
  | sortedRemove => exact hr.take true

theorem Reference.length_take (r : Reference α) (withKey : Bool) :
    (r.take withKey).entries.length ≤ r.entries.length := by
  cases hx : r.entries with
  | nil => rw [take_nil hx, hx]
  | cons x entries =>
    rw [take_cons hx, List.length_cons]
    exact Nat.le_succ _

/-- A call adds at most one entry. -/
theorem Reference.length_next (r : Reference α) (call : Call α) :
    (r.next call).entries.length ≤ r.entries.length + 1 := by
  cases call with
  | append a item => simp [next, put]
  | prepend a item => simp [next, put]
  | sortedInsert a item key =>
    have h : (Insert.insertBy Entry.key (r.entry item key) r.entries).Perm _ := Insert.insertBy_perm
    exact h.length_eq.le
  | remove => exact (r.length_take false).trans (Nat.le_succ _)
  | sortedRemove => exact (r.length_take true).trans (Nat.le_succ _)

/-- The list represents the reference, and `n` more elements fit the fuel. -/
def Fits (memory : ℕ → Option (ListElement α)) (fuel n : ℕ) (s : LinkedList α) (r : Reference α) :
    Prop :=
  (∃ cells, s.Represents memory cells r) ∧ r.entries.length + n ≤ fuel

theorem Fits.step {n : ℕ} {call : Call α} (h : Fits memory fuel (n + 1) s r) (hc : s.Fresh call) :
    ∃ s', s.step fuel call = some s' ∧ Fits memory fuel n s' (r.next call) := by
  obtain ⟨⟨cells, hr⟩, hlen⟩ := h
  have hf : r.entries.length ≤ fuel := by omega
  obtain ⟨s', cells', hs', hr'⟩ := hr.step hf hc
  have hnext := Reference.length_next r call
  exact ⟨s', hs', ⟨cells', hr'⟩, by omega⟩

/-- The list after any calls. -/
theorem represents_run {calls : List (Call α)} (hf : calls.length ≤ fuel)
    (ha : Run.Admits (LinkedList.step fuel) Fresh (new memory) calls) :
    ∃ s cells, Run.exec (LinkedList.step fuel) (new memory) calls = some s ∧
      s.Represents memory cells (Reference.run calls) := by
  have h₀ : Fits memory fuel calls.length (new memory) Reference.empty :=
    ⟨⟨[], represents_new memory⟩, by simpa [Reference.empty] using hf⟩
  have hstep : ∀ n s (r : Reference α) call, Fits memory fuel (n + 1) s r → Fresh s call →
      ∃ s', LinkedList.step fuel s call = some s' ∧ Fits memory fuel n s' (Reference.next r call) :=
    fun n s r call h hc => h.step hc
  obtain ⟨s, he, ⟨cells, hr⟩, -⟩ := Run.exec_refines hstep calls _ _ h₀ ha
  exact ⟨s, cells, he, hr⟩

/-! ## Sorted lists -/

/-- A smaller key, or the same key and put in earlier. -/
def Entry.Before (x y : Entry α) : Prop := x.key < y.key ∨ x.key = y.key ∧ x.stamp < y.stamp

theorem Entry.Before.key_le {x y : Entry α} (h : x.Before y) : x.key ≤ y.key := by
  rcases h with h | ⟨h, -⟩
  · exact h.le
  · exact h.le

/-- The calls that keep a list sorted. -/
def Call.sorted : Call α → Bool
  | .sortedInsert _ _ _ | .sortedRemove | .remove => true
  | .append _ _ | .prepend _ _ => false

structure Reference.InOrder (r : Reference α) : Prop where
  before : r.entries.Pairwise Entry.Before
  made : ∀ x ∈ r.entries, x.stamp < r.made

theorem Reference.InOrder.take (h : r.InOrder) (withKey : Bool) : (r.take withKey).InOrder := by
  cases hx : r.entries with
  | nil => rw [take_nil hx]; exact ⟨h.before, h.made⟩
  | cons x entries =>
    rw [take_cons hx]
    have hbefore := h.before
    rw [hx] at hbefore
    exact ⟨(List.pairwise_cons.mp hbefore).2,
      fun y hy => h.made y (hx ▸ List.mem_cons_of_mem x hy)⟩

theorem Reference.InOrder.next {call : Call α} (h : r.InOrder) (hc : call.sorted = true) :
    (r.next call).InOrder := by
  cases call with
  | append | prepend => cases hc
  | remove => exact h.take false
  | sortedRemove => exact h.take true
  | sortedInsert a item key =>
    have hsorted : Insert.Sorted Entry.key r.entries := h.before.imp Entry.Before.key_le
    refine ⟨Insert.pairwise_insertBy hsorted h.before (fun y _ hlt => Or.inl hlt)
      fun y hy hle => ?_, fun x hx => ?_⟩
    · rcases hle.lt_or_eq with hlt | heq
      · exact Or.inl hlt
      · exact Or.inr ⟨heq, h.made y hy⟩
    · rcases Insert.mem_insertBy.mp hx with rfl | hx
      · exact Nat.lt_succ_self _
      · exact (h.made x hx).trans (Nat.lt_succ_self _)

theorem Reference.inOrder_run {calls : List (Call α)} (hc : ∀ call ∈ calls, call.sorted = true) :
    (run calls).InOrder := by
  suffices h : ∀ r : Reference α, r.InOrder → (calls.foldl next r).InOrder from
    h empty ⟨List.Pairwise.nil, nofun⟩
  induction calls with
  | nil => exact fun _ h => h
  | cons call calls ih =>
    exact fun r h => ih (fun c hmem => hc c (List.mem_cons_of_mem _ hmem)) _
      (h.next (hc call List.mem_cons_self))

/-- What a sorted list is promised. -/
structure SortedLaw (s : LinkedList α) (cells : List (ℕ × ListElement α)) (r : Reference α) :
    Prop where
  keys : cells.Pairwise fun c d => c.2.key ≤ d.2.key
  order : r.entries.Pairwise Entry.Before
  /-- `SortedRemove` yields the first of the items with the least key, and this key. -/
  least : r.entries ≠ [] → ∃ s' x, s.sortedRemove = some s' ∧ x ∈ r.entries ∧
    (∀ y ∈ r.entries, y ≠ x → x.Before y) ∧ s'.removed = s.removed ++ [(x.item, some x.key)]

theorem Represents.sortedLaw (hr : s.Represents memory cells r) (h : r.InOrder) :
    s.SortedLaw cells r := by
  refine ⟨?_, h.before, fun hne => ?_⟩
  · have hkeys : (r.entries.map Entry.data).Pairwise fun p q => p.2 ≤ q.2 :=
      List.pairwise_map.mpr (h.before.imp Entry.Before.key_le)
    rw [← hr.contents, List.pairwise_map] at hkeys
    exact hkeys
  · obtain ⟨x, entries, hx⟩ := List.exists_cons_of_ne_nil hne
    obtain ⟨s', cells', hs', hr'⟩ := hr.take true
    have hbefore := h.before
    rw [hx] at hbefore
    refine ⟨s', x, hs', hx ▸ List.mem_cons_self, fun y hy hyx => ?_, ?_⟩
    · rw [hx] at hy
      exact (List.pairwise_cons.mp hbefore).1 y ((List.mem_cons.mp hy).resolve_left hyx)
    · rw [hr'.removed, Reference.take_cons hx, hr.removed]
      rfl

/-- **The linked list.** After any calls the pointers from `first` on lead over finitely many
elements to null, the last of them is `last`, and they hold the items of the reference; `Remove` and
`SortedRemove` have returned what the reference says. A list that only `SortedInsert`,
`SortedRemove` and `Remove` have worked on is sorted, with equal keys in the order of insertion. -/
theorem list_represents {calls : List (Call α)} (hf : calls.length ≤ fuel)
    (ha : Run.Admits (LinkedList.step fuel) Fresh (new memory) calls) :
    ∃ s cells, Run.exec (LinkedList.step fuel) (new memory) calls = some s ∧
      s.Represents memory cells (Reference.run calls) ∧
      ((∀ call ∈ calls, call.sorted = true) → s.SortedLaw cells (Reference.run calls)) := by
  obtain ⟨s, cells, he, hr⟩ := represents_run hf ha
  exact ⟨s, cells, he, hr, fun hc => hr.sortedLaw (Reference.inOrder_run hc)⟩

end Steps

/-- Four insertions, with a removal that frees an address, next to an element of another list. -/
def timerCalls : List (Call ℕ) :=
  [.sortedInsert 0 (some 10) 5, .sortedInsert 1 (some 11) 3, .sortedInsert 2 (some 12) 5,
    .sortedRemove, .sortedInsert 1 (some 13) 5]

def otherElement : ℕ → Option (ListElement ℕ) :=
  Function.update (fun _ => none) 7 (some { next := none, key := 0, item := none })

theorem list_represents_timer : ∃ s cells,
    Run.exec (step 5) (new otherElement) timerCalls = some s ∧
    s.Represents otherElement cells (Reference.run timerCalls) ∧
    s.SortedLaw cells (Reference.run timerCalls) ∧
    (Reference.run timerCalls).entries = [⟨some 10, 5, 0⟩, ⟨some 12, 5, 2⟩, ⟨some 13, 5, 3⟩] := by
  obtain ⟨s, cells, he, hr, hsorted⟩ := list_represents (le_refl timerCalls.length)
    (Run.admits_of_admitted (by decide : Run.admitted (step 5) Fresh (new otherElement)
      timerCalls = true))
  exact ⟨s, cells, he, hr, hsorted (by decide), by decide⟩

end LinkedList

end Nachos
