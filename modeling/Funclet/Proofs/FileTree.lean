import Funclet.FileTree
import Funclet.Proofs.OrderedMap

/-!
# Files that keep what is written

* `FileSystem.Faithful` : a file system returns what has been written, also after it has been moved;
* `FileTree.Keeps` : no folder goes away, so that paths lead where they have led before (`Keeps.locate`);
* `FileTree.system_faithful` : trees of files return what has been written.
-/

namespace Funclet

/-- The file system returns what has been written. -/
structure FileSystem.Faithful {σ : Type} (fs : FileSystem σ) : Prop where
  read_write : ∀ {path bytes t t'}, fs.write path bytes t = (.ok (), t') → (fs.read path t').1 = .ok bytes
  read_rename : ∀ {source target t t'}, fs.rename source target t = (.ok (), t') →
    (fs.read target t').1 = (fs.read source t).1

namespace FileTree

/-- Where `t` has a folder, so has `t'`. -/
def Keeps (t t' : FileTree) : Prop := ∀ p, t.find? p = some .folder → t'.find? p = some .folder

variable {t t' : FileTree} {p q : Location} {path : String} {bytes : ByteArray}

/-! ## Paths -/

theorem find?_of_step {name : String} (h : t.step p name = .ok q) : t.find? p = some .folder := by
  unfold step at h
  split at h
  · cases h
  · cases h
  · cases h
  · assumption

theorem Keeps.step (h : Keeps t t') {name : String} (hstep : t.step p name = .ok q) : t'.step p name = .ok q := by
  have hp := find?_of_step hstep
  unfold FileTree.step at hstep ⊢
  rw [hp] at hstep
  rw [h p hp]
  exact hstep

theorem Keeps.walk (h : Keeps t t') {names : List String} (hwalk : names.foldlM t.step p = .ok q) :
    names.foldlM t'.step p = .ok q := by
  induction names generalizing p with
  | nil => exact hwalk
  | cons name names ih =>
    rw [List.foldlM_cons] at hwalk ⊢
    cases hs : t.step p name with
    | error e =>
      rw [hs] at hwalk
      cases hwalk
    | ok r =>
      rw [hs] at hwalk
      rw [h.step hs]
      exact ih hwalk

theorem Keeps.locate (h : Keeps t t') (hloc : t.locate path = .ok p) : t'.locate path = .ok p := by
  unfold FileTree.locate at hloc ⊢
  split at hloc
  · cases hloc
  · split at hloc
    · cases hloc
    · rename_i hne hlen
      rw [if_neg hne, if_neg hlen]
      exact h.walk hloc

theorem read_of_locate (hloc : t.locate path = .ok p) (hp : t.find? p = some (.file bytes)) :
    (t.read path).1 = .ok bytes := by
  have hlookup : t.lookup path = .ok (.file bytes) := by
    simp only [lookup, hloc, bind, Except.bind, hp]
  simp only [read, hlookup]

theorem place_ok (h : t.place path = .ok p) : t.locate path = .ok p ∧ t.find? p ≠ some .folder := by
  unfold place at h
  cases hloc : t.locate path with
  | error e =>
    rw [hloc] at h
    cases h
  | ok r =>
    rw [hloc] at h
    simp only [bind, Except.bind] at h
    split at h <;> cases h <;> simp_all

/-! ## Changes -/

/-- A folder is listed, or leads to something that is. -/
theorem find?_eq_folder_iff : t.find? p = some .folder ↔
    t.entries.get? p = some .folder ∨ t.entries.get? p = none ∧ ∃ k ∈ t.entries.keys, p <+: k := by
  unfold find?
  cases t.entries.get? p <;> simp

theorem mem_keys_insert {m : OrderedMap Location Entry} {e : Entry} :
    p ∈ (m.insert q e).keys ↔ p = q ∨ p ∈ m.keys := by
  rw [← not_iff_not, not_or, ← OrderedMap.get?_eq_none_iff, ← OrderedMap.get?_eq_none_iff, OrderedMap.get?_insert]
  by_cases hpq : q = p
  · simp [hpq]
  · simp [hpq, Ne.symm hpq]

theorem find?_put (t : FileTree) (p : Location) (bytes : ByteArray) :
    (t.put p bytes).find? p = some (.file bytes) := by
  simp [find?, put]

/-- A file that is put where no folder is covers none. -/
theorem find?_put_of_ne (hne : p ≠ q) (h : t.find? p = some .folder) : (t.put q bytes).find? p = some .folder := by
  rw [find?_eq_folder_iff] at h ⊢
  have hget : (t.put q bytes).entries.get? p = t.entries.get? p :=
    (OrderedMap.get?_insert ..).trans (if_neg hne.symm)
  rw [hget]
  rcases h with h | ⟨hnone, k, hk, hpk⟩
  · exact .inl h
  · exact .inr ⟨hnone, k, mem_keys_insert.2 (.inr hk), hpk⟩

theorem Keeps.put (hp : t.find? p ≠ some .folder) : Keeps t (t.put p bytes) :=
  fun _ hq => find?_put_of_ne (fun heq => hp (heq ▸ hq)) hq

/-- What leads to a file leads to the folder around it. -/
theorem prefix_dropLast (h : p <+: q) (hne : p ≠ q) : p <+: q.dropLast := by
  obtain ⟨r, rfl⟩ := h
  have hr : r ≠ [] := by
    rintro rfl
    exact hne (List.append_nil p).symm
  exact ⟨r.dropLast, (List.dropLast_append_of_ne_nil hr).symm⟩

theorem Keeps.clear (hp : t.find? p ≠ some .folder) : Keeps t (t.clear p) := by
  intro q hq
  have hne : p ≠ q := fun heq => hp (heq ▸ hq)
  rw [find?_eq_folder_iff] at hq ⊢
  have hget : (t.clear p).entries.get? q = if p.dropLast = q then some .folder else t.entries.get? q :=
    (OrderedMap.get?_insert ..).trans (by rw [OrderedMap.get?_erase, if_neg hne])
  rw [hget]
  split
  · exact .inl rfl
  · rcases hq with hq | ⟨hnone, k, hk, hqk⟩
    · exact .inl hq
    by_cases hkp : k = p
    · exact .inr ⟨hnone, p.dropLast, mem_keys_insert.2 (.inl rfl), prefix_dropLast (hkp ▸ hqk) hne.symm⟩
    · have hk' : k ∈ (t.entries.erase p).keys := by simpa [OrderedMap.keys, OrderedMap.erase, hkp] using hk
      exact .inr ⟨hnone, k, mem_keys_insert.2 (.inr hk'), hqk⟩

/-! ## The file system -/

theorem read_write (h : t.write path bytes = (.ok (), t')) : (t'.read path).1 = .ok bytes := by
  unfold write at h
  cases hplace : t.place path with
  | error e =>
    rw [hplace] at h
    cases h
  | ok p =>
    rw [hplace] at h
    cases h
    obtain ⟨hloc, hp⟩ := place_ok hplace
    exact read_of_locate ((Keeps.put hp).locate hloc) (t.find?_put p bytes)

theorem read_rename {source target : String} (h : t.rename source target = (.ok (), t')) :
    (t'.read target).1 = (t.read source).1 := by
  unfold rename renamed at h
  cases hsource : t.place source with
  | error e =>
    rw [hsource] at h
    cases h
  | ok p =>
    cases htarget : t.place target with
    | error e =>
      rw [hsource, htarget] at h
      cases h
    | ok q =>
      rw [hsource, htarget] at h
      obtain ⟨hlocSource, hp⟩ := place_ok hsource
      obtain ⟨hlocTarget, hq⟩ := place_ok htarget
      simp only [bind, Except.bind] at h
      split at h
      · rename_i hfind
        split at hfind <;> cases hfind
        cases h
      · rename_i hfind
        split at hfind <;> cases hfind
        rename_i bytes hfile
        cases h
        have hkeeps : Keeps t ((t.clear p).put q bytes) := fun r hr =>
          find?_put_of_ne (fun heq => hq (heq ▸ hr)) (Keeps.clear hp r hr)
        rw [read_of_locate hlocSource hfile]
        exact read_of_locate (hkeeps.locate hlocTarget) (find?_put _ _ _)

theorem system_faithful : system.Faithful where
  read_write := read_write
  read_rename := read_rename

end FileTree

end Funclet
