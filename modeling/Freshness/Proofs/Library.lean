import Freshness.Library
import Freshness.Proofs.Graph
import Freshness.Proofs.Path.Set
import Mathlib.Data.List.Basic

/-!
# Libraries by their answers

The answers of a resolver are kept, and a resolver may change its state.  If the answers
do not depend on the state, neither does the table of libraries: it is made of the
answers alone.
-/

namespace Freshness

/-- The sets of a table of libraries keep every path under its own components. -/
def LibraryMap.Keyed (map : LibraryMap) : Prop :=
  ∀ (id : Identity) supplied, map[id]? = some supplied → PathSet.Keyed supplied

namespace Library

variable {σ : Type}

/-- The libraries among the answers for some symbols. -/
def suppliers (answer : Identity → Option Path) (symbols : List Identity) : PathSet :=
  symbols.foldl (fun libraries symbol =>
    match answer symbol with
    | some library => libraries.insert library
    | none => libraries) {}

/-- Adds the libraries of one unit to those of others. -/
def addRow (answer : Identity → Option Path) (g : DependencyGraph)
    (platform : List String) (map : LibraryMap) (row : Identity × List Identity) :
    LibraryMap :=
  let libraries := suppliers answer (row.2.filter (isExternal g platform))
  if libraries.isEmpty then map else map.insert row.1 libraries

/-- The libraries of all units of a graph by given answers. -/
def table (answer : Identity → Option Path) (g : DependencyGraph)
    (platform : List String) : LibraryMap :=
  g.forward.toList.foldl (addRow answer g platform) {}

/-- A resolver gives the same answers in all of its states. -/
def Gives (resolver : Identity → StateM σ (Option Path))
    (answer : Identity → Option Path) (valid : σ → Prop) : Prop :=
  ∀ symbol s, valid s →
    (resolver symbol s).1 = answer symbol ∧ valid (resolver symbol s).2

/-- The answers that are kept are those of the resolver. -/
def Kept (answer : Identity → Option Path) (valid : σ → Prop)
    (state : Answers × σ) : Prop :=
  (∀ (symbol : Identity) found, state.1[symbol]? = some found → found = answer symbol) ∧
    valid state.2

theorem foldlM_state {τ α β : Type} {f : β → α → StateM τ β} {g : β → α → β}
    {valid : τ → Prop}
    (h : ∀ b a s, valid s → (f b a s).1 = g b a ∧ valid (f b a s).2)
    (items : List α) (b : β) {s : τ} (hs : valid s) :
    (items.foldlM f b s).1 = items.foldl g b ∧ valid (items.foldlM f b s).2 := by
  induction items generalizing b s with
  | nil => exact ⟨rfl, hs⟩
  | cons a rest ih =>
      obtain ⟨hvalue, hvalid⟩ := h b a s hs
      rw [List.foldlM_cons, List.foldl_cons, ← hvalue]
      exact ih (f b a s).1 hvalid

variable {resolver : Identity → StateM σ (Option Path)}
  {answer : Identity → Option Path} {valid : σ → Prop}

theorem ask_of_some {answers : Answers} {symbol : Identity} {found : Option Path}
    (h : answers[symbol]? = some found) (s : σ) :
    ask resolver symbol (answers, s) = (found, answers, s) := by
  simp only [ask, h]

theorem ask_of_none {answers : Answers} {symbol : Identity} (h : answers[symbol]? = none)
    (s : σ) : ask resolver symbol (answers, s) = ((resolver symbol s).1,
      answers.insert symbol (resolver symbol s).1, (resolver symbol s).2) := by
  simp only [ask, h]
  rfl

theorem ask_kept (h : Gives resolver answer valid) (symbol : Identity)
    {state : Answers × σ} (hstate : Kept answer valid state) :
    (ask resolver symbol state).1 = answer symbol ∧
      Kept answer valid (ask resolver symbol state).2 := by
  obtain ⟨answers, s⟩ := state
  obtain ⟨hanswers, hs⟩ := hstate
  cases hfound : answers[symbol]? with
  | some found =>
      rw [ask_of_some hfound]
      exact ⟨hanswers symbol found hfound, hanswers, hs⟩
  | none =>
      obtain ⟨hvalue, hvalid⟩ := h symbol s hs
      rw [ask_of_none hfound]
      refine ⟨hvalue, ?_, hvalid⟩
      intro symbol' found hfound'
      rw [Std.TreeMap.getElem?_insert] at hfound'
      split at hfound'
      next hsame =>
        obtain rfl : symbol = symbol' := by simpa using hsame
        cases hfound'
        exact hvalue
      next => exact hanswers symbol' found hfound'

theorem supplying_kept (h : Gives resolver answer valid) (symbols : List Identity)
    {state : Answers × σ} (hstate : Kept answer valid state) :
    (supplying resolver symbols state).1 = suppliers answer symbols ∧
      Kept answer valid (supplying resolver symbols state).2 := by
  refine foldlM_state ?_ symbols ({} : PathSet) hstate
  intro libraries symbol state hstate
  obtain ⟨hvalue, hvalid⟩ := ask_kept h symbol hstate
  rw [← hvalue]
  rcases hask : ask resolver symbol state with ⟨found, state'⟩
  rw [hask] at hvalid
  cases found with
  | none =>
      simp only [bind, StateT.bind, hask]
      exact ⟨rfl, hvalid⟩
  | some library =>
      simp only [bind, StateT.bind, hask]
      exact ⟨rfl, hvalid⟩

theorem gather_kept (h : Gives resolver answer valid) (g : DependencyGraph)
    (platform : List String) {state : Answers × σ} (hstate : Kept answer valid state) :
    (gather resolver g platform state).1 = table answer g platform := by
  refine (foldlM_state ?_ g.forward.toList ({} : LibraryMap) hstate).1
  rintro map ⟨id, symbols⟩ state hstate
  obtain ⟨hvalue, hvalid⟩ :=
    supplying_kept h (symbols.filter (isExternal g platform)) hstate
  rw [addRow, ← hvalue]
  exact ⟨rfl, hvalid⟩

/-- The table of libraries is made of the answers. -/
theorem resolve_eq_table (h : Gives resolver answer valid) (g : DependencyGraph)
    (platform : List String) {s : σ} (hs : valid s) :
    (resolve resolver g platform s).1 = table answer g platform := by
  have hstate : Kept answer valid (({} : Answers), s) := by
    refine ⟨?_, hs⟩
    intro symbol found hfound
    simp at hfound
  exact gather_kept h g platform hstate

/-! ## Rows of the table -/

/-- The libraries among some answers are the answers, as a set. -/
theorem suppliers_eq (answer : Identity → Option Path) (symbols : List Identity) :
    suppliers answer symbols = (symbols.filterMap answer).foldl PathSet.insert {} := by
  rw [suppliers, List.foldl_filterMap]
  apply List.foldl_ext
  intro libraries symbol _
  cases answer symbol <;> rfl

theorem mem_suppliers {answer : Identity → Option Path} {symbols : List Identity}
    {p : Path} (h : p ∈ (suppliers answer symbols).toList) :
    ∃ symbol ∈ symbols, answer symbol = some p := by
  rw [suppliers_eq] at h
  exact List.mem_filterMap.mp ((PathSet.holds_foldl_insert _).of_mem p h)

theorem suppliers_congr {answer answer' : Identity → Option Path}
    {symbols : List Identity} (h : ∀ symbol ∈ symbols, answer symbol = answer' symbol) :
    suppliers answer symbols = suppliers answer' symbols := by
  apply List.foldl_ext
  intro libraries symbol hsymbol
  rw [h symbol hsymbol]

section Table

variable (answer : Identity → Option Path) (g : DependencyGraph) (platform : List String)

theorem getElem?_addRow_of_ne (map : LibraryMap) {row : Identity × List Identity}
    {id : Identity} (h : row.1 ≠ id) :
    (addRow answer g platform map row)[id]? = map[id]? := by
  rw [addRow]
  split
  · rfl
  · rw [Std.TreeMap.getElem?_insert, if_neg (by simpa using h)]

theorem getElem?_foldl_addRow_of_ne (map : LibraryMap)
    {rows : List (Identity × List Identity)} {id : Identity}
    (h : ∀ row ∈ rows, row.1 ≠ id) :
    (rows.foldl (addRow answer g platform) map)[id]? = map[id]? := by
  induction rows generalizing map with
  | nil => rfl
  | cons row rest ih =>
      obtain ⟨hrow, hrest⟩ := List.forall_mem_cons.mp h
      rw [List.foldl_cons, ih _ hrest, getElem?_addRow_of_ne answer g platform map hrow]

theorem getElem?_foldl_addRow (map : LibraryMap)
    {rows : List (Identity × List Identity)}
    (hrows : rows.Pairwise fun a b => a.1 ≠ b.1)
    {id : Identity} {symbols : List Identity} (hmem : (id, symbols) ∈ rows) :
    (rows.foldl (addRow answer g platform) map)[id]? =
      if (suppliers answer (symbols.filter (isExternal g platform))).isEmpty then map[id]?
      else some (suppliers answer (symbols.filter (isExternal g platform))) := by
  induction rows generalizing map with
  | nil => cases hmem
  | cons row rest ih =>
      obtain ⟨hfirst, hrest⟩ := List.pairwise_cons.mp hrows
      rw [List.foldl_cons]
      rcases List.mem_cons.mp hmem with rfl | hmem
      · rw [getElem?_foldl_addRow_of_ne answer g platform _
          fun row hrow => (hfirst row hrow).symm, addRow]
        split
        · rfl
        · exact Std.TreeMap.getElem?_insert_self
      · rw [ih _ hrest hmem,
          getElem?_addRow_of_ne answer g platform map (hfirst _ hmem)]

/-- The table has the libraries of each unit that has any. -/
theorem getElem?_table (id : Identity) :
    (table answer g platform)[id]? =
      if (suppliers answer
          ((g.references id).filter (isExternal g platform))).isEmpty then none
      else some (suppliers answer
        ((g.references id).filter (isExternal g platform))) := by
  rw [table, DependencyGraph.references, Std.TreeMap.getD_eq_getD_getElem?]
  have hrows : g.forward.toList.Pairwise fun a b => a.1 ≠ b.1 :=
    Std.TreeMap.distinct_keys_toList.imp fun hne heq => hne (by simp [heq])
  cases hget : g.forward[id]? with
  | none =>
      rw [getElem?_foldl_addRow_of_ne]
      · simp [suppliers, PathSet.isEmpty]
      · rintro ⟨id', symbols⟩ hrow rfl
        rw [Std.TreeMap.mem_toList_iff_getElem?_eq_some, hget] at hrow
        cases hrow
  | some symbols =>
      rw [getElem?_foldl_addRow answer g platform _ hrows
        (Std.TreeMap.mem_toList_iff_getElem?_eq_some.mpr hget)]
      simp

/-- In the sets that are found for units every path is under its own components. -/
theorem keyed_table : LibraryMap.Keyed (table answer g platform) := by
  intro id supplied h
  rw [getElem?_table, suppliers_eq] at h
  split at h
  · cases h
  · obtain rfl := Option.some.inj h
    exact PathSet.keyed_empty.foldl_insert _

end Table

end Library
end Freshness
