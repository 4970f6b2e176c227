import Lox.Directory.Basic

/-!
# Directories with a new file

A file that is written where no folder stands takes no folder away, so every path leads where it led
before, and the new file is read at its own path.
-/

namespace Lox.Directory

variable {directory : Directory} {place other : Place} {path : Path} {entry : Entry}

theorem find?_put_of_ne (hne : other ≠ place) :
    (directory.put place entry).entries.find? (·.1 = other) =
      directory.entries.find? (·.1 = other) := by
  have hfind : ∀ known : Place × Entry,
      (decide (known.1 ≠ place) && decide (known.1 = other)) = decide (known.1 = other) := by
    intro known
    by_cases hknown : known.1 = other
    · simp [hknown, hne]
    · simp [hknown]
  simp only [put, List.find?_cons, hne.symm, decide_false, List.find?_filter, hfind,
    Bool.decide_and, Bool.decide_eq_true]

theorem any_isWithin_put (hwithin : directory.entries.any (·.1.isWithin other) = true) :
    (directory.put place entry).entries.any (·.1.isWithin other) = true := by
  obtain ⟨known, hmem, hknown⟩ := List.any_eq_true.1 hwithin
  rw [List.any_eq_true]
  by_cases hplace : known.1 = place
  · exact ⟨(place, entry), List.mem_cons_self, hplace ▸ hknown⟩
  · exact ⟨known, List.mem_cons_of_mem _ (List.mem_filter.2 ⟨hmem, by simpa using hplace⟩), hknown⟩

/-- A folder is still one after something was put in a place without a folder. -/
theorem get?_put_of_folder (hplace : directory.get? place ≠ some .folder)
    (hother : directory.get? other = some .folder) :
    (directory.put place entry).get? other = some .folder := by
  have hne : other ≠ place := by
    rintro rfl
    exact hplace hother
  unfold get? at hother ⊢
  split at hother
  · next htop => rw [if_pos htop]
  · next htop =>
    rw [if_neg htop, find?_put_of_ne hne]
    -- A folder without an entry of its own is known by what lies within it.
    split at hother
    · exact hother
    · split at hother
      · next hwithin => rw [if_pos (any_isWithin_put hwithin)]
      · cases hother

theorem follow_put (hplace : directory.get? place ≠ some .folder) {start found : Place}
    {parts : List String} (hfollow : directory.follow start parts = .ok found) :
    (directory.put place entry).follow start parts = .ok found := by
  induction parts generalizing start with
  | nil => exact hfollow
  | cons part rest ih =>
    rw [follow] at hfollow ⊢
    split at hfollow
    · cases hfollow
    · cases hfollow
    · next hfolder =>
      rw [get?_put_of_folder hplace hfolder]
      dsimp only
      split at hfollow
      · cases hfollow
      · next hname =>
        rw [if_neg hname]
        split at hfollow
        · next hup => rw [if_pos hup, ih hfollow]
        · next hup => rw [if_neg hup, ih hfollow]

theorem locate_put (hplace : directory.get? place ≠ some .folder) {found : Place}
    (hlocate : directory.locate path = .ok found) :
    (directory.put place entry).locate path = .ok found := by
  unfold locate at hlocate ⊢
  split at hlocate
  · cases hlocate
  · next hzero =>
    rw [if_neg hzero]
    split at hlocate
    · cases hlocate
    · next hlong =>
      rw [if_neg hlong]
      exact follow_put hplace hlocate

theorem target_eq_ok (htarget : directory.target path = .ok place) :
    directory.locate path = .ok place ∧ directory.get? place ≠ some .folder := by
  cases hlocate : directory.locate path with
  | error fault =>
    simp only [target, hlocate, bind, Except.bind] at htarget
    cases htarget
  | ok found =>
    simp only [target, hlocate, bind, Except.bind] at htarget
    split at htarget
    · cases htarget
    · next hfolder =>
      cases htarget
      exact ⟨rfl, hfolder⟩

/-- What is written to a file is read from it. -/
theorem read_put {bytes : ByteArray} (htarget : directory.target path = .ok place) :
    (directory.put place (.file bytes)).read path = .ok bytes := by
  obtain ⟨hlocate, hplace⟩ := target_eq_ok htarget
  have htop : place.isTop = false := by
    cases htop : place.isTop with
    | true => exact absurd (if_pos htop) hplace
    | false => rfl
  simp only [read, locate_put hplace hlocate, bind, Except.bind, get?_put_self _ _ _ htop]

end Lox.Directory
