import Freshness.Extraction
import Freshness.Proofs.FileSystem.Deleting

/-!
# Refusals

Which deletions are refused is a property of a tree that no operation changes.
-/

namespace Freshness
namespace FileSystem

theorem refusal?_create {fs fs' : FileSystem} {l : Location} {node : Node}
    (h : fs.create l node = .ok fs') : fs'.refusal? = fs.refusal? := by
  unfold create at h
  split at h
  · cases h
    rfl
  · cases h

theorem refusal?_write {fs fs' : FileSystem} {p : Path} {content : Bytes}
    (h : fs.write p content = .ok fs') : fs'.refusal? = fs.refusal? := by
  unfold write at h
  cases hplace : fs.locate .write p with
  | error e => simp [hplace, bind, Except.bind] at h
  | ok place =>
      simp only [hplace, bind, Except.bind] at h
      split at h
      · exact refusal?_create h
      · split at h
        · cases h
        · cases h
        · cases h
          rfl
        · cases h

theorem refusal?_createDirectory {fs fs' : FileSystem} {p : Path}
    (h : fs.createDirectory p = .ok fs') : fs'.refusal? = fs.refusal? := by
  unfold createDirectory at h
  cases hplace : fs.locate .rearrange p with
  | error e => simp [hplace, bind, Except.bind] at h
  | ok place =>
      simp only [hplace, bind, Except.bind] at h
      split at h
      · cases h
      · exact refusal?_create h

theorem refusal?_createDirectories (fs : FileSystem) (p : Path) :
    (fs.createDirectories p).2.refusal? = fs.refusal? := by
  fun_induction createDirectories fs p with
  | case1 => rfl
  | case2 p hnil fs' hcreate => exact refusal?_createDirectory hcreate
  | case3 => rfl
  | case4 p hnil herror q hparent e fs' hfail ih =>
      rw [hfail] at ih
      exact ih
  | case5 p hnil herror q hparent fs' hparents fs'' hcreate ih =>
      rw [hparents] at ih
      exact (refusal?_createDirectory hcreate).trans ih
  | case6 p hnil herror q hparent fs' hparents e hfail ih =>
      rw [hparents] at ih
      exact ih
  | case7 => rfl

theorem refusal?_delete {fs fs' : FileSystem} {p : Path}
    (h : fs.delete p = .ok fs') : fs'.refusal? = fs.refusal? := by
  obtain ⟨e, -, hwithout⟩ := without_of_delete h
  exact hwithout.refusal

theorem refusal?_move {fs fs' : FileSystem} {source target : Path}
    (h : fs.move source target = .ok fs') : fs'.refusal? = fs.refusal? := by
  unfold move at h
  simp only [bind, Except.bind, throw, throwThe, MonadExceptOf.throw, pure,
    Except.pure] at h
  repeat' split at h
  all_goals cases h
  all_goals rfl

end FileSystem

open FileSystem

theorem Cache.refusal?_put
    (cache : Cache) (fs : FileSystem) (unit : CompiledUnit) (symbols : List Identity) :
    (cache.put fs unit symbols).2.refusal? = fs.refusal? := by
  have hparents :=
    refusal?_createDirectories fs ((cache.entryPath unit).parent?.getD ⟨[]⟩)
  rw [put]
  split
  next e made hmade =>
    rw [hmade] at hparents
    exact hparents
  next made hmade =>
    rw [hmade] at hparents
    split
    next e hwrite => exact hparents
    next written hwrite =>
      have hwritten := (refusal?_write hwrite).trans hparents
      split
      next e hmove =>
        cases hdelete : written.delete (cache.temporaryPath unit) with
        | error e => exact hwritten
        | ok deleted => exact (refusal?_delete hdelete).trans hwritten
      next moved hmove => exact (refusal?_move hmove).trans hwritten

namespace Gathering

variable {ε : Type}

theorem refusal?_addUnit (cache : Option Cache) (extract : Extractor ε) (g : Gathering)
    (unit : CompiledUnit) :
    (g.addUnit cache extract unit).2.fileSystem.refusal? = g.fileSystem.refusal? := by
  unfold addUnit
  split
  · rfl
  · split
    · rfl
    · split
      · rfl
      · cases cache with
        | none => rfl
        | some cache => exact cache.refusal?_put _ _ _

theorem refusal?_addUnits (cache : Option Cache) (extract : Extractor ε) (g : Gathering)
    (units : List CompiledUnit) :
    (g.addUnits cache extract units).2.fileSystem.refusal? =
      g.fileSystem.refusal? := by
  induction units generalizing g with
  | nil => rfl
  | cons unit rest ih =>
      have hstep := refusal?_addUnit cache extract g unit
      rw [addUnits]
      split
      next e g' herror =>
        rw [herror] at hstep
        exact hstep
      next g' hok =>
        rw [hok] at hstep
        exact (ih g').trans hstep

end Gathering
end Freshness
