import Mathlib
import Freshness.Proofs.Library

/-!
# What a resolver is asked

The answers of a resolver are kept while the units are gone through, so it is asked for each symbol
once, where the symbol occurs first, whatever it answers.  As long as the answers depend on the
symbol alone, the table is the one that would be made by asking every time.
-/

namespace Freshness
namespace Library

variable {σ : Type}

/-- The symbol names no unit and begins like no name of the platform. -/
def Foreign (g : DependencyGraph) (platform : List String) (symbol : Identity) : Prop :=
  g.unit? symbol = none ∧ ∀ beginning ∈ platform, ¬beginning.toList <+: symbol.toList

theorem isExternal_iff {g : DependencyGraph} {platform : List String} {symbol : Identity} :
    isExternal g platform symbol = true ↔ Foreign g platform symbol := by
  have hunit : g.contains symbol = (g.unit? symbol).isSome :=
    Std.TreeMap.contains_eq_isSome_getElem?
  simp [isExternal, Foreign, hunit, Identity.isPlatform]

instance (g : DependencyGraph) (platform : List String) : DecidablePred (Foreign g platform) :=
  fun _ => decidable_of_iff _ isExternal_iff

/-- The references for which libraries are needed, in the order of the units. -/
def wanted (g : DependencyGraph) (platform : List String) : List Identity :=
  (g.forward.toList.flatMap Prod.snd).filter (Foreign g platform)

/-- The state of a resolver after it has been asked for a symbol. -/
def asked (resolver : Identity → StateM σ (Option Path)) (s : σ) (symbol : Identity) : σ :=
  (resolver symbol s).2

/-- A resolver that writes down what it is asked for. -/
def recording (resolver : Identity → StateM σ (Option Path)) :
    Identity → StateM (σ × List Identity) (Option Path) := fun symbol (s, record) =>
  let (answer, s) := resolver symbol s
  (answer, s, record ++ [symbol])

/-- The first occurrences of the symbols that have no answer yet. -/
def fresh (answers : Answers) (symbols : List Identity) : List Identity :=
  (symbols.filter (· ∉ answers)).eraseDups

/-- From one state to the next the resolver has been asked for the given symbols, as far as they had
no answer. -/
structure Asks (resolver : Identity → StateM σ (Option Path)) (symbols : List Identity)
    (before after : Answers × σ) : Prop where
  mem_iff : ∀ symbol : Identity, symbol ∈ after.1 ↔ symbol ∈ before.1 ∨ symbol ∈ symbols
  state : after.2 = (fresh before.1 symbols).foldl (asked resolver) before.2

namespace Asks

variable {resolver : Identity → StateM σ (Option Path)} {before mid after : Answers × σ}
  {symbols symbols' : List Identity}

theorem nil : Asks resolver [] before before where
  mem_iff := by simp
  state := rfl

/-- What has been answered once is not asked for again. -/
theorem append (h : Asks resolver symbols before mid) (h' : Asks resolver symbols' mid after) :
    Asks resolver (symbols ++ symbols') before after where
  mem_iff symbol := by rw [h'.mem_iff, h.mem_iff, List.mem_append, or_assoc]
  state := by
    have hfresh : fresh before.1 (symbols ++ symbols') =
        fresh before.1 symbols ++ fresh mid.1 symbols' := by
      rw [fresh, List.filter_append, List.eraseDups_append, List.removeAll, List.filter_filter]
      congr 2
      apply List.filter_congr
      intro symbol _
      by_cases hknown : symbol ∈ before.1 <;> simp [h.mem_iff, hknown]
    rw [hfresh, List.foldl_append, ← h.state]
    exact h'.state

theorem foldlM {α β : Type} {f : β → α → StateM (Answers × σ) β} {symbols : α → List Identity}
    (h : ∀ b a state, Asks resolver (symbols a) state (f b a state).2) (items : List α) (b : β)
    (state : Answers × σ) :
    Asks resolver (items.flatMap symbols) state (items.foldlM f b state).2 := by
  induction items generalizing b state with
  | nil => exact nil
  | cons a rest ih =>
      rw [List.foldlM_cons, List.flatMap_cons]
      exact (h b a state).append (ih (f b a state).1 (f b a state).2)

end Asks

variable (resolver : Identity → StateM σ (Option Path))

theorem asks_ask (symbol : Identity) (state : Answers × σ) :
    Asks resolver [symbol] state (ask resolver symbol state).2 := by
  obtain ⟨answers, s⟩ := state
  cases hfound : answers[symbol]? with
  | some found =>
      have hmem : symbol ∈ answers := by
        rw [Std.TreeMap.mem_iff_isSome_getElem?, hfound]
        rfl
      rw [ask_of_some hfound]
      constructor
      · intro other
        rw [List.mem_singleton]
        exact ⟨Or.inl, fun h => h.elim id fun heq => heq ▸ hmem⟩
      · simp [fresh, hmem]
  | none =>
      have hmem : symbol ∉ answers := by
        rw [Std.TreeMap.mem_iff_isSome_getElem?, hfound]
        simp
      rw [ask_of_none hfound]
      constructor
      · intro other
        simp [Std.TreeMap.mem_insert, or_comm, @eq_comm _ other]
      · simp [fresh, hmem, asked, List.eraseDups_cons]

theorem asks_supplying (symbols : List Identity) (state : Answers × σ) :
    Asks resolver symbols state (supplying resolver symbols state).2 := by
  have hall : Asks resolver (symbols.flatMap fun symbol => [symbol]) state
      (supplying resolver symbols state).2 := by
    refine Asks.foldlM ?_ symbols ({} : PathSet) state
    intro libraries symbol state
    have h := asks_ask resolver symbol state
    rcases hask : ask resolver symbol state with ⟨found, state'⟩
    rw [hask] at h
    simp only [bind, StateT.bind, hask]
    cases found <;> exact h
  rwa [List.flatMap_singleton'] at hall

theorem asks_gather (g : DependencyGraph) (platform : List String) (state : Answers × σ) :
    Asks resolver (wanted g platform) state (gather resolver g platform state).2 := by
  have hwanted : wanted g platform =
      g.forward.toList.flatMap fun row => row.2.filter (isExternal g platform) := by
    rw [wanted, List.filter_flatMap]
    refine List.flatMap_congr fun row _ => List.filter_congr fun symbol _ => ?_
    exact Bool.eq_iff_iff.mpr (by simp [isExternal_iff])
  rw [hwanted]
  refine Asks.foldlM ?_ g.forward.toList ({} : LibraryMap) state
  rintro map ⟨id, symbols⟩ state
  exact asks_supplying resolver (symbols.filter (isExternal g platform)) state

theorem fresh_empty (symbols : List Identity) :
    fresh ({} : Answers) symbols = symbols.eraseDups := by
  simp [fresh]

/-- A resolver is asked for the first occurrences of the wanted symbols, in their order. -/
theorem snd_resolve (g : DependencyGraph) (platform : List String) (s : σ) :
    (resolve resolver g platform s).2 =
      (wanted g platform).eraseDups.foldl (asked resolver) s := by
  rw [← fresh_empty]
  exact (asks_gather resolver g platform ({}, s)).state

theorem foldl_asked_recording (symbols : List Identity) (s : σ) (record : List Identity) :
    symbols.foldl (asked (recording resolver)) (s, record) =
      (symbols.foldl (asked resolver) s, record ++ symbols) := by
  induction symbols generalizing s record with
  | nil => simp
  | cons symbol rest ih =>
      rw [List.foldl_cons, List.foldl_cons, List.append_cons]
      exact ih _ _

variable {resolver} {answer : Identity → Option Path} {valid : σ → Prop}

theorem Gives.recording (h : Gives resolver answer valid) :
    Gives (recording resolver) answer fun state => valid state.1 :=
  fun symbol state hstate => h symbol state.1 hstate

section Rows

variable {g : DependencyGraph} {platform : List String} {id : Identity}

/-- The foreign references of a unit resolve to `p`, among others. -/
def Supplies (answer : Identity → Option Path) (g : DependencyGraph) (platform : List String)
    (id : Identity) (p : Path) : Prop :=
  ∃ symbol ∈ g.references id, Foreign g platform symbol ∧ answer symbol = some p

theorem holds_suppliers :
    (suppliers answer ((g.references id).filter (isExternal g platform))).Holds
      (Supplies answer g platform id) := by
  have hgiven : Supplies answer g platform id =
      (· ∈ ((g.references id).filter (isExternal g platform)).filterMap answer) := by
    funext p
    simp [Supplies, isExternal_iff, and_assoc]
  rw [hgiven, suppliers_eq]
  exact PathSet.holds_foldl_insert _

theorem mem_table_iff :
    id ∈ table answer g platform ↔ ∃ p, Supplies answer g platform id p := by
  have hholds : (suppliers answer ((g.references id).filter (isExternal g platform))).Holds
      (Supplies answer g platform id) := holds_suppliers
  rw [Std.TreeMap.mem_iff_isSome_getElem?, getElem?_table]
  split
  next hempty =>
    rw [PathSet.isEmpty_iff] at hempty
    refine iff_of_false (by simp) ?_
    rintro ⟨p, hp⟩
    obtain ⟨q, hq, -⟩ := hholds.exists_mem p hp
    rw [hempty] at hq
    cases hq
  next hempty =>
    rw [PathSet.isEmpty_iff] at hempty
    obtain ⟨p, hp⟩ := List.exists_mem_of_ne_nil _ hempty
    exact iff_of_true rfl ⟨p, hholds.of_mem p hp⟩

theorem holds_of_table {supplied : PathSet}
    (h : (table answer g platform)[id]? = some supplied) :
    supplied.Holds (Supplies answer g platform id) := by
  rw [getElem?_table] at h
  split at h
  · cases h
  · obtain rfl := Option.some.inj h
    exact holds_suppliers

end Rows

/-- A unit has libraries if one of its foreign references resolves to one, and then it has all that
they resolve to and no other; and the resolver is asked for the foreign references alone, for each
where it occurs first. -/
theorem resolve_asks_once (h : Gives resolver answer valid) (g : DependencyGraph)
    (platform : List String) {s : σ} (hs : valid s) :
    ∃ map s', resolve resolver g platform s = (map, s') ∧
      resolve (recording resolver) g platform (s, []) =
        (map, s', (wanted g platform).eraseDups) ∧
      (∀ id : Identity, id ∈ map ↔ ∃ p, Supplies answer g platform id p) ∧
      ∀ (id : Identity) supplied, map[id]? = some supplied →
        supplied.Holds (Supplies answer g platform id) := by
  refine ⟨table answer g platform, (resolve resolver g platform s).2, ?_, ?_, ?_, ?_⟩
  · exact Prod.ext (resolve_eq_table h g platform hs) rfl
  · refine Prod.ext (resolve_eq_table h.recording g platform hs) ?_
    rw [snd_resolve, foldl_asked_recording, ← snd_resolve, List.nil_append]
  · exact fun id => mem_table_iff
  · exact fun id supplied => holds_of_table

/-! ## Two classes that share their references -/

/-- Two classes that refer to the same foreign symbols, the platform and each other. -/
def sharedGraph : DependencyGraph :=
  DependencyGraph.ofReferences
    (Scan.ofUnits [⟨"A", Path.ofString "/o/A.class", Path.ofString "A"⟩,
      ⟨"B", Path.ofString "/o/B.class", Path.ofString "B"⟩])
    ((({} : Std.TreeMap Identity (List Identity)).insert "A"
      ["lib.Util", "lib.Missing", "java.lang.Object"]).insert "B"
      ["lib.Missing", "lib.Util", "A"])

def utilAnswer (symbol : Identity) : Option Path :=
  if symbol = "lib.Util" then some (Path.ofString "/l/lib.jar") else none

def utilResolver (symbol : Identity) : StateM Unit (Option Path) := pure (utilAnswer symbol)

theorem gives_utilResolver : Gives utilResolver utilAnswer fun _ => True :=
  fun _ _ _ => ⟨rfl, trivial⟩

theorem wanted_sharedGraph :
    (wanted sharedGraph ["java."]).eraseDups = ["lib.Util", "lib.Missing"] := by
  cbv

theorem supplies_sharedGraph :
    Supplies utilAnswer sharedGraph ["java."] "B" (Path.ofString "/l/lib.jar") := by
  have hreferences : sharedGraph.references "B" = ["lib.Missing", "lib.Util", "A"] := by cbv
  refine ⟨"lib.Util", ?_, isExternal_iff.mp (by cbv), rfl⟩
  rw [hreferences]
  exact List.mem_cons_of_mem _ List.mem_cons_self

theorem resolve_asks_once_shared :
    (Gives utilResolver utilAnswer fun _ => True) ∧
    ∃ map, resolve (recording utilResolver) sharedGraph ["java."] ((), []) =
        (map, (), ["lib.Util", "lib.Missing"]) ∧ "B" ∈ map := by
  obtain ⟨map, s', -, hrecord, hmem, -⟩ :=
    resolve_asks_once gives_utilResolver sharedGraph ["java."] (s := ()) trivial
  rw [wanted_sharedGraph] at hrecord
  exact ⟨gives_utilResolver, map, hrecord, (hmem "B").mpr ⟨_, supplies_sharedGraph⟩⟩

end Library
end Freshness
