import Mathlib
import Freshness.Proofs.Cache.Confinement
import Freshness.Proofs.Cache.RoundTrip

/-!
# Keeping references

Keeping the references of a unit puts the file of the references in place of its entry, or fails and
leaves the entry as it was.  Either way nothing changes for the other units, whatever lies where
entries or temporary files would go and wherever writing is refused.
-/

namespace Freshness
namespace Cache

open FileSystem DependencyGraph

variable {cache : Cache} {fs fs' : FileSystem} {unit other : CompiledUnit}
  {symbols : List Identity} {dirs : List Name} {stem : Name}

/-! ## Reading back -/

/-- What has been kept counts, and it is what was to be kept just when every reference can stand on
a line of its own. -/
theorem get_put_eq_some_iff (htree : fs.WellFormed)
    (hput : cache.put fs unit symbols = (.ok (), fs'))
    (hnewer : fs'.isNewer (cache.entryPath unit) unit.absolute = true) :
    (∃ found, cache.get fs' unit = some found) ∧
      (cache.get fs' unit = some symbols ↔ ∀ symbol ∈ symbols, Lines.Fits symbol) := by
  have hget := get_of_put htree hput hnewer
  refine ⟨⟨_, hget⟩, ?_⟩
  rw [hget, Option.some.injEq]
  exact ⟨Lines.fits_of_nonempty_ofList, Lines.nonempty_ofList⟩

theorem get_put_eq_some_iff_return :
    (usedCache.put (loneTree []) classA ["B\r"] = (.ok (), loneLeft [] ["B\r"]) ∧
      (loneLeft [] ["B\r"]).isNewer (usedCache.entryPath classA) classA.absolute = true) ∧
    (∃ found, usedCache.get (loneLeft [] ["B\r"]) classA = some found) ∧
    usedCache.get (loneLeft [] ["B\r"]) classA ≠ some ["B\r"] ∧
    usedCache.get (loneLeft [] []) classA = some [] := by
  obtain ⟨hhit, hreturn⟩ := get_put_eq_some_iff (wellFormed_loneTree [])
    (put_loneTree [] ["B\r"]) (isNewer_loneLeft [] ["B\r"])
  obtain ⟨-, hempty⟩ := get_put_eq_some_iff (wellFormed_loneTree []) (put_loneTree [] [])
    (isNewer_loneLeft [] [])
  refine ⟨⟨put_loneTree _ _, isNewer_loneLeft _ _⟩, hhit, fun hget => ?_, hempty.mpr (by simp)⟩
  exact (hreturn.mp hget "B\r" (List.mem_singleton_self _)).no_return (by decide)

/-! ## One unit after the other -/

/-- The tree once the references of some units have been kept, or could not be. -/
def putAll (cache : Cache) (fs : FileSystem) (kept : List (CompiledUnit × List Identity)) :
    FileSystem :=
  kept.foldl (fun fs entry => (cache.put fs entry.1 entry.2).2) fs

theorem spares_putAll (hsound : cache.Sound fs) {kept : List (CompiledUnit × List Identity)}
    (hnamed : ∀ entry ∈ kept, ∃ dirs stem, entry.1.Named dirs stem) :
    Spares (some cache) (fun other => ∀ entry ∈ kept, other.id ≠ entry.1.id) fs
      (cache.putAll fs kept) := by
  induction kept generalizing fs with
  | nil =>
      refine Spares.refl ?_
      rintro _ ⟨⟩
      exact hsound
  | cons entry rest ih =>
      obtain ⟨⟨dirs, stem, hentry⟩, hrest⟩ := List.forall_mem_cons.mp hnamed
      have hfirst := spares_put hsound hentry entry.2
      refine (hfirst.mono ?_).trans ((ih (hfirst.sound cache rfl) hrest).mono ?_)
      · exact fun other h => h entry List.mem_cons_self
      · exact fun other h entry' hmem => h entry' (List.mem_cons_of_mem entry hmem)

/-- However often references are kept, no link comes to lie below the cache directory. -/
theorem clear_putAll (htree : fs.WellFormed) (hclear : cache.Clear fs)
    {kept : List (CompiledUnit × List Identity)}
    (hnamed : ∀ entry ∈ kept, ∃ dirs stem, entry.1.Named dirs stem) :
    (cache.putAll fs kept).WellFormed ∧ cache.Clear (cache.putAll fs kept) := by
  induction kept generalizing fs with
  | nil => exact ⟨htree, hclear⟩
  | cons entry rest ih =>
      obtain ⟨⟨dirs, stem, hentry⟩, hrest⟩ := List.forall_mem_cons.mp hnamed
      exact ih (wellFormed_put htree entry.2) (hclear.put htree hentry entry.2) hrest

/-- Once the references of a unit have been kept, its entry is the file of the references, and
nothing has its temporary name. -/
theorem read_put_of_ok (htree : fs.WellFormed) (hclear : cache.Clear fs)
    (hnamed : unit.Named dirs stem) (hput : cache.put fs unit symbols = (.ok (), fs')) :
    fs'.read (cache.entryPath unit) = .ok (Utf8.encode (Lines.ofList symbols)) ∧
      fs'.pathExists (cache.temporaryPath unit) = false := by
  obtain ⟨made, written, hmade, hwrite, hmove⟩ := exists_of_put hput
  have hprepares : cache.Prepares fs made := by
    have hnext : cache.Prepares fs
        (fs.createDirectories ((cache.entryPath unit).parent?.getD ⟨[]⟩)).2 :=
      .next .start hnamed
    rwa [hmade] at hnext
  -- the root leads to a directory by now, even if it turned back before
  obtain ⟨base₀, hbase₀⟩ := exists_at_of_write hnamed hwrite
  have hsound : cache.Sound made :=
    (hclear.of_prepares hprepares).sound (hprepares.wellFormed htree) hbase₀
  have hleft : cache.writeEntry made unit symbols = fs' := by
    simp only [writeEntry, hwrite, hmove]
  rcases advances_writeEntry hsound hnamed symbols with
    ⟨hfails, -⟩ | ⟨-, hadvances, base, hbase, hresolve, hnode, hgone⟩
  · exact absurd ⟨written, fs', hwrite, hmove⟩ hfails
  rw [hleft] at hadvances hbase hresolve hnode hgone
  constructor
  · obtain ⟨e, hentry⟩ := Option.isSome_iff_exists.mp (isSome_entry?_of_node? hnode)
    have hlookup : fs'.lookup? (cache.entryPath unit) = some e := by
      rw [lookup?, hresolve]
      exact hentry
    obtain ⟨time, hfile⟩ := exists_lookup?_of_put htree hput hlookup
    exact read_eq_ok_iff.mpr ⟨_, hfile, by simp, rfl⟩
  · rw [pathExists, lookup?, temporaryPath_eq cache hnamed]
    cases hresolve' : fs'.resolve (cache.root.descend (temporaryNames dirs stem)) with
    | error e => rfl
    | ok l =>
        obtain ⟨base', hbase', rfl⟩ := exists_at_of_resolve (hadvances.sound hsound)
          (isName_temporaryNames hnamed) hresolve'
        obtain rfl := hbase.unique hbase'
        rw [Option.isSome_eq_false_iff, Option.isNone_iff_eq_none]
        exact Option.map_eq_none_iff.mp hgone

/-! ## What keeping references leaves alone -/

/-- After any number of writes, another write that goes well replaces the entry of its unit as a
whole.  Where the root of the cache goes back to no directory that is missing, a write leaves alone
what counts for the other units, and for its own unit as well if it fails. -/
theorem put_isolated {roots : List Path} {earlier : List (CompiledUnit × List Identity)}
    {result : Except CacheError Unit} (htree : fs.WellFormed) (hclear : cache.Clear fs)
    (hearlier : ∀ entry ∈ earlier, entry.1 ∈ (Scan.compiledUnits fs roots).values)
    (hunit : unit ∈ (Scan.compiledUnits fs roots).values)
    (hput : cache.put (cache.putAll fs earlier) unit symbols = (result, fs')) :
    (cache.Sound fs →
      (∀ other ∈ (Scan.compiledUnits fs roots).values, other.id ≠ unit.id →
        cache.get fs' other = cache.get (cache.putAll fs earlier) other) ∧
      ∀ e, result = .error e →
        cache.get fs' unit = cache.get (cache.putAll fs earlier) unit) ∧
    (result = .ok () →
      fs'.read (cache.entryPath unit) = .ok (Utf8.encode (Lines.ofList symbols)) ∧
        fs'.pathExists (cache.temporaryPath unit) = false) := by
  have hnamed : ∀ entry ∈ earlier, ∃ dirs stem, entry.1.Named dirs stem := by
    intro entry hmem
    obtain ⟨dirs, stem, hentry⟩ := Scan.exists_placed_of_mem htree (hearlier entry hmem)
    exact ⟨dirs, stem, hentry.named⟩
  obtain ⟨dirs, stem, hplaced⟩ := Scan.exists_placed_of_mem htree hunit
  have hfirst : (cache.put (cache.putAll fs earlier) unit symbols).1 = result :=
    congrArg Prod.fst hput
  have hleft : (cache.put (cache.putAll fs earlier) unit symbols).2 = fs' :=
    congrArg Prod.snd hput
  constructor
  · intro hsound
    have hspares := spares_putAll hsound hnamed
    have hsound' := hspares.sound cache rfl
    obtain ⟨hplaced', -⟩ := hspares.artifact hplaced
    constructor
    · intro other hother hne
      obtain ⟨dirs', stem', hbefore⟩ := Scan.exists_placed_of_mem htree hother
      obtain ⟨hplacedOther, -⟩ := hspares.artifact hbefore
      rw [← hleft]
      exact (spares_put hsound' hplaced'.named symbols).bind_get hplacedOther hne
    · intro e herror
      rw [← hleft]
      exact get_put_of_error hsound' hplaced' (hfirst.trans herror)
  · rintro rfl
    obtain ⟨htree', hclear'⟩ := clear_putAll htree hclear hnamed
    exact read_put_of_ok htree' hclear' hplaced.named hput

/-- The directory in which the forgotten entry lies. -/
def oldCache : Cache := ⟨Path.ofString "/c/old"⟩

/-- The references of the first class are kept twice. -/
theorem put_isolated_old :
    oldCache.Clear (detourTree []) ∧ oldCache.Sound (detourTree []) ∧
    (Scan.compiledUnits (detourTree []) classRoots).values = [classA, classB] ∧
    ∃ fs', oldCache.put (oldCache.putAll (detourTree []) [(classA, ["B"])]) classA [] =
        (.ok (), fs') ∧
      oldCache.get fs' classB = some ["wrong"] ∧
      fs'.read (oldCache.entryPath classA) = .ok (Utf8.encode (Lines.ofList [])) ∧
      fs'.pathExists (oldCache.temporaryPath classA) = false := by
  have hway : oldCache.way = [Utf8.encode "c", Utf8.encode "old"] := by cbv
  have hsound : oldCache.Sound (detourTree []) :=
    sound_of_not_mem (wellFormed_detourTree []) (fun base _ => noLinkBelow_detourTree [] base)
      (by rw [hway]; decide)
  have hunits := values_detourTree []
  have hheld : oldCache.get (oldCache.putAll (detourTree []) [(classA, ["B"])]) classB =
      some ["wrong"] := by
    cbv
  have hok : (oldCache.put (oldCache.putAll (detourTree []) [(classA, ["B"])]) classA []).1 =
      .ok () := by
    cbv
  have hA : classA ∈ (Scan.compiledUnits (detourTree []) classRoots).values := by simp [hunits]
  have hB : classB ∈ (Scan.compiledUnits (detourTree []) classRoots).values := by simp [hunits]
  obtain ⟨hspared, hkept⟩ := put_isolated (wellFormed_detourTree []) hsound.clear
    (List.forall_mem_singleton.mpr hA) hA (Prod.ext hok rfl)
  have hother := (hspared hsound).1 classB hB (by decide)
  exact ⟨hsound.clear, hsound, hunits, _, Prod.ext hok rfl, hother.trans hheld, hkept rfl⟩

/-- Where the root of a cache turns back from a directory that is not there yet, the first write may
bring up a forgotten entry of another unit. -/
theorem not_put_isolated_detour :
    ¬∀ (cache : Cache) (fs : FileSystem) (roots : List Path) (unit other : CompiledUnit)
      (symbols : List Identity), fs.WellFormed → (∀ base, fs.NoLinkBelow base) →
      unit ∈ (Scan.compiledUnits fs roots).values →
      other ∈ (Scan.compiledUnits fs roots).values → other.id ≠ unit.id →
        cache.get (cache.put fs unit symbols).2 other = cache.get fs other := by
  intro h
  have hsame := h detourCache (detourTree []) classRoots classA classB [] (wellFormed_detourTree [])
    (noLinkBelow_detourTree []) (by simp [values_detourTree]) (by simp [values_detourTree])
    (by decide)
  rw [(get_detourTree []).2] at hsame
  have hfound : detourCache.get (detourCache.put (detourTree []) classA []).2 classB =
      some ["wrong"] := get_detourLeft []
  rw [hfound] at hsame
  cases hsame

end Cache

/-! ## One turn after the other -/

namespace Gathering

variable {ε : Type} {cache : Cache} {extract : Extractor ε} {symbols : List Identity}

/-- What is found of some units when the turn of each comes, if the same references are kept for all
of them: whether its entry is newer than its artifact, and what the artifact holds. -/
def turns (cache : Cache) (symbols : List Identity) :
    FileSystem → List CompiledUnit → List (Bool × Except OsError Bytes)
  | _, [] => []
  | fs, unit :: rest =>
      (fs.isNewer (cache.entryPath unit) unit.absolute, fs.read unit.absolute) ::
        turns cache symbols (cache.put fs unit symbols).2 rest

/-- Units that have no entry at their turn, and whose artifacts are empty, are all read. -/
theorem exists_addUnits_of_turns (hextract : extract [] = .ok symbols) (g : Gathering)
    {units : List CompiledUnit}
    (h : ∀ turn ∈ turns cache symbols g.fileSystem units, turn = (false, .ok [])) :
    ∃ g', g.addUnits (some cache) extract units = (.ok (), g') ∧
      g'.fileSystem = cache.putAll g.fileSystem (units.map fun unit => (unit, symbols)) ∧
      g'.forward = units.foldl (fun forward unit => forward.insert unit.id symbols) g.forward := by
  induction units generalizing g with
  | nil => exact ⟨g, rfl, rfl, rfl⟩
  | cons unit rest ih =>
      obtain ⟨hturn, hrest⟩ := List.forall_mem_cons.mp h
      obtain ⟨hnewer, hread⟩ := Prod.mk.inj hturn
      have hmiss : (some cache).bind (·.get g.fileSystem unit) = none :=
        Cache.get_of_not_newer hnewer
      rw [addUnits_cons hmiss ⟨[], hread, hextract⟩]
      exact ih _ hrest

end Gathering

end Freshness
