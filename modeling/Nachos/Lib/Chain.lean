import Mathlib.Data.List.Nodup
import Mathlib.Logic.Function.Basic

/-!
# Chains of cells in a memory

A memory `m : A → Option E` has cells of type `E` at some addresses, and `next` is the pointer in a
cell. `Path next m ptr cells stop` follows the pointers from `ptr` over the cells with their
addresses to `stop`. A path that ends in a null pointer never comes back to an address, so a change
at one of its addresses changes one cell.
-/

namespace Chain

variable {A E : Type*} (next : E → Option A)

/-- The pointers lead from `ptr` through the cells to `stop`. -/
def Path (m : A → Option E) : Option A → List (A × E) → Option A → Prop
  | ptr, [], stop => ptr = stop
  | ptr, c :: cells, stop => ptr = some c.1 ∧ m c.1 = some c.2 ∧ Path m (next c.2) cells stop

/-- The addresses of the cells. -/
def addresses (cells : List (A × E)) : List A := cells.map Prod.fst

variable {next} {m m' : A → Option E} {ptr stop : Option A} {cells l₁ l₂ : List (A × E)}
  {c : A × E} {a : A}

@[simp] theorem addresses_nil : addresses ([] : List (A × E)) = [] := rfl

@[simp] theorem addresses_cons : addresses (c :: cells) = c.1 :: addresses cells := rfl

@[simp] theorem addresses_append : addresses (l₁ ++ l₂) = addresses l₁ ++ addresses l₂ :=
  List.map_append

theorem path_nil : Path next m ptr [] stop ↔ ptr = stop := Iff.rfl

theorem path_cons : Path next m ptr (c :: cells) stop ↔
    ptr = some c.1 ∧ m c.1 = some c.2 ∧ Path next m (next c.2) cells stop := Iff.rfl

theorem path_append : Path next m ptr (l₁ ++ l₂) stop ↔
    ∃ mid, Path next m ptr l₁ mid ∧ Path next m mid l₂ stop := by
  induction l₁ generalizing ptr with
  | nil => simp [path_nil]
  | cons c l₁ ih =>
    simp only [List.cons_append, path_cons, ih]
    constructor
    · rintro ⟨hp, hc, mid, h₁, h₂⟩; exact ⟨mid, ⟨hp, hc, h₁⟩, h₂⟩
    · rintro ⟨mid, ⟨hp, hc, h₁⟩, h₂⟩; exact ⟨hp, hc, mid, h₁, h₂⟩

theorem Path.head (h : Path next m ptr cells none) : ptr = cells.head?.map Prod.fst := by
  cases cells with
  | nil => exact h
  | cons c cells => exact h.1

theorem Path.cell (h : Path next m ptr cells stop) (hc : c ∈ cells) : m c.1 = some c.2 := by
  induction cells generalizing ptr with
  | nil => cases hc
  | cons c' cells ih =>
    obtain ⟨-, hc', h'⟩ := h
    rcases List.mem_cons.mp hc with rfl | hc
    · exact hc'
    · exact ih h' hc

/-- An address that holds nothing is not on the path. -/
theorem Path.notMem (h : Path next m ptr cells stop) (ha : m a = none) : a ∉ addresses cells := by
  intro hmem
  obtain ⟨c, hc, rfl⟩ := List.mem_map.mp hmem
  rw [h.cell hc] at ha
  cases ha

/-- Only the cells on the path matter. -/
theorem Path.congr (h : Path next m ptr cells stop)
    (hm : ∀ a ∈ addresses cells, m' a = m a) : Path next m' ptr cells stop := by
  induction cells generalizing ptr with
  | nil => exact h
  | cons c cells ih =>
    obtain ⟨hp, hc, h'⟩ := h
    exact ⟨hp, (hm c.1 List.mem_cons_self).trans hc,
      ih h' fun a ha => hm a (List.mem_cons_of_mem _ ha)⟩

/-- There is one path from a pointer to the end. -/
theorem Path.unique {cells' : List (A × E)} (h : Path next m ptr cells none)
    (h' : Path next m ptr cells' none) : cells = cells' := by
  induction cells generalizing ptr cells' with
  | nil =>
    cases cells' with
    | nil => rfl
    | cons c' cells' => cases h.symm.trans h'.1
  | cons c cells ih =>
    cases cells' with
    | nil => cases h.1.symm.trans h'
    | cons c' cells' =>
      have haddr : c.1 = c'.1 := Option.some.inj (h.1.symm.trans h'.1)
      have hcell : c = c' := Prod.ext haddr
        (Option.some.inj (h.2.1.symm.trans ((congrArg m haddr).trans h'.2.1)))
      subst hcell
      rw [ih h.2.2 h'.2.2]

/-- A path that ends in a null pointer has no cycle. -/
theorem Path.nodup (h : Path next m ptr cells none) : (addresses cells).Nodup := by
  induction cells generalizing ptr with
  | nil => exact List.nodup_nil
  | cons c cells ih =>
    refine List.nodup_cons.mpr ⟨fun hmem => ?_, ih h.2.2⟩
    obtain ⟨c', hc', he⟩ := List.mem_map.mp hmem
    obtain ⟨l₁, l₂, rfl⟩ := List.append_of_mem hc'
    obtain ⟨mid, -, hmid⟩ := path_append.mp h.2.2
    -- the rest of the path starts at the address of `c` again
    have hrest : Path next m ptr (c' :: l₂) none :=
      ⟨h.1.trans (congrArg some he.symm), hmid.2.1, hmid.2.2⟩
    have hlen := congrArg List.length (h.unique hrest)
    simp only [List.length_cons, List.length_append] at hlen
    omega

variable [DecidableEq A]

theorem Path.update (h : Path next m ptr cells stop) (ha : a ∉ addresses cells) (e : Option E) :
    Path next (Function.update m a e) ptr cells stop :=
  h.congr fun b hb => Function.update_of_ne (by rintro rfl; exact ha hb) _ _

/-- A new cell in front. -/
theorem Path.cons (h : Path next m ptr cells none) (ha : a ∉ addresses cells) {x : E}
    (hx : next x = ptr) :
    Path next (Function.update m a (some x)) (some a) ((a, x) :: cells) none :=
  ⟨rfl, Function.update_self _ _ _, hx ▸ h.update ha _⟩

/-- A new cell behind the cell `c`. -/
theorem Path.insert (h : Path next m ptr (l₁ ++ c :: l₂) none)
    (ha : a ∉ addresses (l₁ ++ c :: l₂)) {x e : E} (hx : next x = next c.2) (he : next e = some a) :
    Path next (Function.update (Function.update m a (some x)) c.1 (some e)) ptr
      (l₁ ++ (c.1, e) :: (a, x) :: l₂) none := by
  have hn := h.nodup
  rw [addresses_append, addresses_cons] at hn ha
  obtain ⟨-, hn₂, hdisj⟩ := List.nodup_append.mp hn
  rw [List.mem_append, List.mem_cons, not_or, not_or] at ha
  obtain ⟨ha₁, hac, ha₂⟩ := ha
  obtain ⟨mid, h₁, hp, -, h₂⟩ := path_append.mp h
  have hc₁ : c.1 ∉ addresses l₁ := fun hmem => hdisj c.1 hmem c.1 List.mem_cons_self rfl
  refine path_append.mpr ⟨mid, (h₁.update ha₁ _).update hc₁ _, hp, Function.update_self _ _ _, he,
    ?_, ?_⟩
  · rw [Function.update_of_ne hac, Function.update_self]
  · rw [hx]
    exact (h₂.update ha₂ _).update (List.nodup_cons.mp hn₂).1 _

/-- Without the first cell. -/
theorem Path.tail (h : Path next m ptr (c :: cells) none) (e : Option E) :
    Path next (Function.update m c.1 e) (next c.2) cells none :=
  h.2.2.update (List.nodup_cons.mp h.nodup).1 e

end Chain
