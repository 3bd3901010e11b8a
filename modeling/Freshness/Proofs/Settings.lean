import Freshness.Settings
import Mathlib.Data.List.Forall2

/-!
# What settings are resolved to

Every value of the settings is taken from the overriding ones if it is given there, else from the
configuration, whose paths are seen from the directory of the configuration.  Then the source roots
are looked at, and the cache root after them, and the first thing that is wrong is reported.
-/

namespace Freshness

theorem Path.join_of_isAbsolute {base inner : Path} (h : inner.isAbsolute = true) :
    base.join inner = inner := by
  rw [join, if_pos (Or.inl h)]

namespace Settings

/-- The configured paths as seen from `base`, in order; absolute ones are what they are. -/
def Anchored (base : Path) (configured paths : List Path) : Prop :=
  List.Forall₂ (fun inner p => p = base.join inner ∧ (inner.isAbsolute = true → p = inner))
    configured paths

/-- The overriding paths as they are, or the configured ones if there are none. -/
structure Layered (base : Path) (overriding configured paths : List Path) : Prop where
  of_ne_nil : overriding ≠ [] → paths = overriding
  of_nil : overriding = [] → Anchored base configured paths

/-- The value that is given, or the other one if none is. -/
structure Preferred {α : Type} (given : Option α) (other value : α) : Prop where
  of_some : ∀ v, given = some v → value = v
  of_none : given = none → value = other

/-- The settings hold the values of a configuration with others before them. -/
structure Merged (c : Configuration) (o : Overrides) (base : Path) (s : Settings) : Prop where
  sourceRoots : Layered base o.sourceRoots c.sourceRoots s.sourceRoots
  outputRoots : o.outputRoots ≠ [] ∨ c.outputRoots ≠ [] →
    Layered base o.outputRoots c.outputRoots s.outputRoots
  outputRoots_default : o.outputRoots = [] → c.outputRoots = [] → s.outputRoots = s.sourceRoots
  cacheRoot : Layered base o.cacheRoot.toList c.cacheRoot.toList s.cacheRoot.toList
  closure : Preferred o.closure c.closure s.closure
  dump : Preferred o.dump c.dump s.dump
  classpath : Layered base o.classpath c.classpath s.classpath
  platform : Preferred c.platform ["java.", "javax."] s.platform

/-- What the settings that are asked for come to.  The source roots are looked at in order, and
before the cache root. -/
inductive Outcome (fs : FileSystem) (c : Configuration) (o : Overrides) (base : Path) :
    Except ConfigError Settings → Prop
  | missingField (hoverriding : o.sourceRoots = []) (hconfigured : c.sourceRoots = []) :
      Outcome fs c o base (.error (.missingField "source_roots"))
  | sourceRootMissing {before after : List Path} {root : Path}
      (hroots : Layered base o.sourceRoots c.sourceRoots (before ++ root :: after))
      (hbefore : ∀ p ∈ before, fs.isDirectory p = true) (hroot : fs.isDirectory root = false) :
      Outcome fs c o base (.error (.sourceRootMissing root))
  | cacheRootNotDirectory {roots : List Path} {root : Path}
      (hroots : Layered base o.sourceRoots c.sourceRoots roots) (hne : roots ≠ [])
      (hdirectories : ∀ p ∈ roots, fs.isDirectory p = true)
      (hroot : Layered base o.cacheRoot.toList c.cacheRoot.toList [root])
      (hexists : fs.pathExists root = true) (hdirectory : fs.isDirectory root = false) :
      Outcome fs c o base (.error (.cacheRootNotDirectory root))
  | resolved {s : Settings} (hmerged : Merged c o base s) (hne : s.sourceRoots ≠ [])
      (hdirectories : ∀ p ∈ s.sourceRoots, fs.isDirectory p = true)
      (hcache : ∀ root, s.cacheRoot = some root → fs.pathExists root = true →
        fs.isDirectory root = true)
      (houtput : s.outputRoots ≠ []) :
      Outcome fs c o base (.ok s)

/-! ## Merging -/

theorem anchored_iff {base : Path} {configured paths : List Path} :
    Anchored base configured paths ↔ paths = configured.map base.join := by
  have hjoin : ∀ inner p : Path,
      (p = base.join inner ∧ (inner.isAbsolute = true → p = inner)) ↔ p = base.join inner := by
    intro inner p
    constructor
    · intro h
      exact h.1
    · rintro rfl
      exact ⟨rfl, Path.join_of_isAbsolute⟩
  simp only [Anchored, hjoin]
  rw [eq_comm, ← List.forall₂_eq_eq_eq, List.forall₂_map_left_iff]
  simp only [eq_comm]

theorem orElse_of_ne_nil {overriding : List Path} (h : overriding ≠ []) (configured : List Path) :
    orElse overriding configured = overriding := by
  rw [orElse, if_neg (by simpa using h)]

theorem orElse_eq_nil_iff {overriding configured : List Path} :
    orElse overriding configured = [] ↔ overriding = [] ∧ configured = [] := by
  cases overriding <;> simp [orElse]

theorem layered_iff {base : Path} {overriding configured paths : List Path} :
    Layered base overriding configured paths ↔
      paths = orElse overriding (configured.map base.join) := by
  by_cases hnil : overriding = []
  · subst hnil
    constructor
    · intro h
      exact anchored_iff.mp (h.of_nil rfl)
    · intro h
      exact ⟨fun hne => absurd rfl hne, fun _ => anchored_iff.mpr h⟩
  · rw [orElse_of_ne_nil hnil]
    constructor
    · intro h
      exact h.of_ne_nil hnil
    · intro h
      exact ⟨fun _ => h, fun hempty => absurd hempty hnil⟩

theorem layered_toList_iff {base : Path} {overriding configured root : Option Path} :
    Layered base overriding.toList configured.toList root.toList ↔
      root = overriding.or (configured.map base.join) := by
  rw [layered_iff]
  cases overriding <;> cases configured <;> cases root <;> simp [orElse]

theorem preferred_iff {α : Type} {given : Option α} {other value : α} :
    Preferred given other value ↔ value = given.getD other := by
  cases given with
  | none =>
      constructor
      · intro h
        exact h.of_none rfl
      · intro h
        exact ⟨fun _ hsome => (Option.some_ne_none _ hsome.symm).elim, fun _ => h⟩
  | some v =>
      constructor
      · intro h
        exact h.of_some v rfl
      · rintro rfl
        exact ⟨fun _ hsome => Option.some.inj hsome,
          fun hnone => (Option.some_ne_none _ hnone).elim⟩

theorem Layered.eq_nil_iff {base : Path} {overriding configured paths : List Path}
    (h : Layered base overriding configured paths) :
    paths = [] ↔ overriding = [] ∧ configured = [] := by
  rw [layered_iff.mp h, orElse_eq_nil_iff, List.map_eq_nil_iff]

/-- Merging gives the only settings that hold the values of both. -/
theorem merged_iff {c : Configuration} {o : Overrides} {base : Path} {s : Settings} :
    Merged c o base s ↔ s = merge c o base := by
  constructor
  · intro h
    have houtput : s.outputRoots =
        orElse (orElse o.outputRoots (c.outputRoots.map base.join)) s.sourceRoots := by
      by_cases hgiven : o.outputRoots ≠ [] ∨ c.outputRoots ≠ []
      · have hlayered := h.outputRoots hgiven
        have hne : s.outputRoots ≠ [] := by
          rw [Ne, hlayered.eq_nil_iff, not_and_or]
          exact hgiven
        rw [← layered_iff.mp hlayered, orElse_of_ne_nil hne]
      · obtain ⟨ho, hc⟩ := not_or.mp hgiven
        rw [h.outputRoots_default (not_not.mp ho) (not_not.mp hc), not_not.mp ho, not_not.mp hc]
        rfl
    obtain ⟨sourceRoots, outputRoots, cacheRoot, closure, dump, classpath, platform⟩ := s
    have hsource := layered_iff.mp h.sourceRoots
    have hcache := layered_toList_iff.mp h.cacheRoot
    have hclosure := preferred_iff.mp h.closure
    have hdump := preferred_iff.mp h.dump
    have hclasspath := layered_iff.mp h.classpath
    have hplatform := preferred_iff.mp h.platform
    simp only at hsource houtput hcache hclosure hdump hclasspath hplatform
    subst hsource houtput hcache hclosure hdump hclasspath hplatform
    rfl
  · rintro rfl
    refine ⟨layered_iff.mpr rfl, ?_, ?_, layered_toList_iff.mpr rfl, preferred_iff.mpr rfl,
      preferred_iff.mpr rfl, layered_iff.mpr rfl, preferred_iff.mpr rfl⟩
    · intro hgiven
      have hne : orElse o.outputRoots (c.outputRoots.map base.join) ≠ [] := by
        rw [Ne, orElse_eq_nil_iff, List.map_eq_nil_iff, not_and_or]
        exact hgiven
      exact layered_iff.mpr (orElse_of_ne_nil hne _)
    · intro ho hc
      simp [merge, ho, hc, orElse]

/-! ## Checking -/

theorem checkSourceRoots_of_forall {fs : FileSystem} {roots : List Path} (hne : roots ≠ [])
    (h : ∀ p ∈ roots, fs.isDirectory p = true) : checkSourceRoots fs roots = .ok () := by
  have hfind : roots.find? (!fs.isDirectory ·) = none := by
    rw [List.find?_eq_none]
    intro p hp
    simp [h p hp]
  rw [checkSourceRoots, if_neg (by simpa using hne), hfind]

theorem checkSourceRoots_of_append {fs : FileSystem} {before after : List Path} {root : Path}
    (hbefore : ∀ p ∈ before, fs.isDirectory p = true) (hroot : fs.isDirectory root = false) :
    checkSourceRoots fs (before ++ root :: after) = .error (.sourceRootMissing root) := by
  have hfind : (before ++ root :: after).find? (!fs.isDirectory ·) = some root := by
    rw [List.find?_eq_some_iff_append]
    refine ⟨by simp [hroot], before, after, rfl, ?_⟩
    intro p hp
    simp [hbefore p hp]
  rw [checkSourceRoots, if_neg (by simp), hfind]

/-- There is no root, or one that is no directory comes first, or all are directories. -/
theorem sourceRoots_cases (fs : FileSystem) (roots : List Path) :
    roots = [] ∨
      (∃ before root after, roots = before ++ root :: after ∧
        (∀ p ∈ before, fs.isDirectory p = true) ∧ fs.isDirectory root = false) ∨
      roots ≠ [] ∧ ∀ p ∈ roots, fs.isDirectory p = true := by
  by_cases hnil : roots = []
  · exact Or.inl hnil
  cases hfind : roots.find? (!fs.isDirectory ·) with
  | none => exact Or.inr (Or.inr ⟨hnil, by simpa using hfind⟩)
  | some root =>
      obtain ⟨hroot, before, after, heq, hbefore⟩ := List.find?_eq_some_iff_append.mp hfind
      exact Or.inr (Or.inl ⟨before, root, after, heq, by simpa using hbefore, by simpa using hroot⟩)

theorem checkCacheRoot_eq_ok {fs : FileSystem} {root? : Option Path}
    (h : ∀ root, root? = some root → fs.pathExists root = true → fs.isDirectory root = true) :
    checkCacheRoot fs root? = .ok () := by
  cases root? with
  | none => rfl
  | some root =>
      rw [checkCacheRoot, if_neg]
      cases hexists : fs.pathExists root with
      | false => simp
      | true => simp [h root rfl hexists]

/-! ## Resolving -/

theorem resolve_of_error {fs : FileSystem} {c : Configuration} {o : Overrides} {base : Path}
    {e : ConfigError} (h : checkSourceRoots fs (merge c o base).sourceRoots = .error e) :
    resolve fs c o base = .error e := by
  rw [resolve, check, h]
  rfl

theorem resolve_of_ok {fs : FileSystem} {c : Configuration} {o : Overrides} {base : Path}
    (h : checkSourceRoots fs (merge c o base).sourceRoots = .ok ()) :
    resolve fs c o base =
      (checkCacheRoot fs (merge c o base).cacheRoot).map fun _ => merge c o base := by
  rw [resolve, check, h]
  cases checkCacheRoot fs (merge c o base).cacheRoot <;> rfl

/-- An outcome that follows from what is given is the one that there is. -/
theorem resolve_of_outcome {fs : FileSystem} {c : Configuration} {o : Overrides} {base : Path}
    {result : Except ConfigError Settings} (h : Outcome fs c o base result) :
    resolve fs c o base = result := by
  cases h with
  | missingField hoverriding hconfigured =>
      have hroots : (merge c o base).sourceRoots = [] :=
        orElse_eq_nil_iff.mpr ⟨hoverriding, List.map_eq_nil_iff.mpr hconfigured⟩
      apply resolve_of_error
      rw [hroots]
      rfl
  | sourceRootMissing hroots hbefore hroot =>
      have hmerge : (merge c o base).sourceRoots = _ := (layered_iff.mp hroots).symm
      apply resolve_of_error
      rw [hmerge, checkSourceRoots_of_append hbefore hroot]
  | @cacheRootNotDirectory roots root hroots hne hdirectories hroot hexists hdirectory =>
      have hmerge : (merge c o base).sourceRoots = roots := (layered_iff.mp hroots).symm
      have hlayered : Layered base o.cacheRoot.toList c.cacheRoot.toList (some root).toList := hroot
      have hcache : (merge c o base).cacheRoot = some root := (layered_toList_iff.mp hlayered).symm
      rw [resolve_of_ok (hmerge ▸ checkSourceRoots_of_forall hne hdirectories), hcache,
        checkCacheRoot, if_pos (by simp [hexists, hdirectory])]
      rfl
  | resolved hmerged hne hdirectories hcache houtput =>
      obtain rfl := merged_iff.mp hmerged
      rw [resolve_of_ok (checkSourceRoots_of_forall hne hdirectories), checkCacheRoot_eq_ok hcache]
      rfl

theorem exists_outcome (fs : FileSystem) (c : Configuration) (o : Overrides) (base : Path) :
    ∃ result, Outcome fs c o base result := by
  have hmerged : Merged c o base (merge c o base) := merged_iff.mpr rfl
  rcases sourceRoots_cases fs (merge c o base).sourceRoots with
    hnil | ⟨before, root, after, heq, hbefore, hroot⟩ | ⟨hne, hdirectories⟩
  · obtain ⟨ho, hc⟩ := hmerged.sourceRoots.eq_nil_iff.mp hnil
    exact ⟨_, .missingField ho hc⟩
  · exact ⟨_, .sourceRootMissing (heq ▸ hmerged.sourceRoots) hbefore hroot⟩
  · by_cases hcache : ∀ root, (merge c o base).cacheRoot = some root →
        fs.pathExists root = true → fs.isDirectory root = true
    · have houtput : (merge c o base).outputRoots ≠ [] := by
        intro hnil
        exact hne (orElse_eq_nil_iff.mp hnil).2
      exact ⟨_, .resolved hmerged hne hdirectories hcache houtput⟩
    · push Not at hcache
      obtain ⟨root, hroot, hexists, hdirectory⟩ := hcache
      have hlayered := hmerged.cacheRoot
      rw [hroot] at hlayered
      exact ⟨_, .cacheRootNotDirectory hmerged.sourceRoots hne hdirectories hlayered hexists
        (by simpa using hdirectory)⟩

/-- Resolving comes to what follows from the configuration, the overriding values and the tree. -/
theorem resolve_eq_iff_outcome (fs : FileSystem) (c : Configuration) (o : Overrides) (base : Path)
    (result : Except ConfigError Settings) :
    resolve fs c o base = result ↔ Outcome fs c o base result := by
  constructor
  · rintro rfl
    obtain ⟨result, hresult⟩ := exists_outcome fs c o base
    rw [resolve_of_outcome hresult]
    exact hresult
  · exact resolve_of_outcome

end Settings
end Freshness
