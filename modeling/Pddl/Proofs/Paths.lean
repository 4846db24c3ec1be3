import Mathlib.Data.List.Basic
import Pddl.Store

/-!
# Where paths lead

A path leads through directories to a place.  It leads to the same file when it is made normal, and
when a file is written at a place, the paths that led to the place lead to the file.

* `partsOf_intercalate_stepsOf` : the steps of a path are the parts of the normal one.
* `Store.follow_of_stays`, `Store.follow_of_not_stays` : a way goes on part by part.
* `Store.lookUp_normalPath` : **a path to a file still leads there when it is made normal.**
* `Place.Takes` : a file is at a location or can be put there.
* `Store.lookUp_write` : **the path to such a place leads to the file after it was written.**
-/

namespace Pddl

/-! ### Parts of paths -/

section Paths

variable {path part : String} {parts : List String}

theorem not_mem_of_mem_splitOn {a : Char} {cs front : List Char} (h : front ∈ cs.splitOn a) :
    a ∉ front := by
  induction cs generalizing front with
  | nil =>
    obtain rfl : front = [] := by simpa using h
    exact List.not_mem_nil
  | cons c cs ih =>
    rw [List.splitOn_cons_eq_if_modifyHead] at h
    split at h
    · obtain rfl | h := List.mem_cons.1 h
      · exact List.not_mem_nil
      · exact ih h
    · rename_i hc
      rcases hrest : cs.splitOn a with _ | ⟨first, rest⟩
      · exact absurd hrest (List.splitOn_ne_nil a cs)
      · rw [hrest, List.modifyHead_cons] at h
        obtain rfl | h := List.mem_cons.1 h
        · rw [List.mem_cons, not_or]
          exact ⟨fun ha => hc (by simp [ha]), ih (hrest ▸ List.mem_cons_self)⟩
        · exact ih (hrest ▸ List.mem_cons_of_mem _ h)

theorem not_mem_of_mem_partsOf (h : part ∈ partsOf path) : '/' ∉ part.toList := by
  obtain ⟨cs, hcs, rfl⟩ := List.mem_map.1 h
  rw [String.toList_ofList]
  exact not_mem_of_mem_splitOn hcs

theorem partsOf_intercalate (hparts : ∀ part ∈ parts, '/' ∉ part.toList) (hne : parts ≠ []) :
    partsOf ("/".intercalate parts) = parts := by
  have hsplit : (['/'].intercalate (parts.map String.toList)).splitOn '/' = parts.map String.toList :=
    List.splitOn_intercalate '/' (by simpa using hparts) (by simpa using hne)
  rw [partsOf, String.toList_intercalate, show "/".toList = ['/'] from rfl, hsplit, List.map_map]
  simp [Function.comp_def]

theorem partsOf_slash (path : String) : partsOf ("/" ++ path) = "" :: partsOf path := by
  rw [partsOf, String.toList_append, show "/".toList = ['/'] from rfl, List.singleton_append,
    List.splitOn_cons_eq_if_modifyHead, if_pos (beq_self_eq_true _)]
  rfl

theorem partsOf_intercalate_stepsOf (h : stepsOf path ≠ []) :
    partsOf ("/".intercalate (stepsOf path)) = stepsOf path :=
  partsOf_intercalate (fun _ hpart => not_mem_of_mem_partsOf (List.mem_of_mem_filter hpart)) h

theorem isAbsolute_slash (path : String) : isAbsolute ("/" ++ path) = true := by
  rw [isAbsolute, String.toList_append]
  rfl

/-- A path whose parts all lead somewhere is relative. -/
theorem isAbsolute_of_not_stays (h : ∀ part ∈ partsOf path, ¬stays part = true) :
    isAbsolute path = false ∧ path ≠ "" := by
  refine ⟨?_, ?_⟩
  · rw [Bool.eq_false_iff]
    intro habsolute
    obtain ⟨cs, hcs⟩ := List.head?_eq_some_iff.1 (beq_iff_eq.1 habsolute)
    obtain rfl : path = "/" ++ String.ofList cs := by
      simp [← String.toList_inj, hcs]
    exact h "" (partsOf_slash _ ▸ List.mem_cons_self) rfl
  · rintro rfl
    exact h "" (by simp [partsOf]) rfl

/-- The slashes in front are kept as the root. -/
theorem rootOf_cases (path : String) :
    isAbsolute path = false ∧ rootOf path = "" ∨
      isAbsolute path = true ∧ (rootOf path = "/" ∨ rootOf path = "//") := by
  rw [isAbsolute, rootOf]
  rcases path.toList with _ | ⟨c, cs⟩
  · exact .inl ⟨rfl, rfl⟩
  · by_cases hc : c = '/'
    · subst hc
      refine .inr ⟨rfl, ?_⟩
      rw [List.takeWhile_cons_of_pos (by rfl), List.length_cons]
      rcases (cs.takeWhile (· == '/')).length with _ | _ | n
      · exact .inl rfl
      · exact .inr rfl
      · exact .inl rfl
    · refine .inl ⟨by simpa using hc, ?_⟩
      rw [List.takeWhile_cons_of_neg (by simpa using hc)]
      rfl

end Paths

/-! ### Ways -/

namespace Store

variable {s : Store} {here location : Location} {path part : String} {parts : List String}
  {bytes : ByteArray}

theorem follow_of_stays (h : stays part = true) :
    s.follow here (part :: parts) = s.follow here parts := by
  rw [follow, if_pos h]

/-- The next step of a way that leads up or down. -/
theorem follow_of_not_stays (h : ¬stays part = true) :
    s.follow here (part :: parts) =
      match s.get? (here.step part) with
      | some (.file bytes) => if parts.isEmpty then .file (here.step part) bytes else .blocked
      | some .directory => s.follow (here.step part) parts
      | none => if parts.isEmpty then .free (here.step part) else .nowhere := by
  conv_lhs => rw [follow]
  exact if_neg h

/-- Steps to the place itself can be left out of the way to a file. -/
theorem follow_filter (h : s.follow here parts = .file location bytes) :
    s.follow here (parts.filter fun part => !stays part) = .file location bytes := by
  fun_induction follow s here parts with
  | case1 => cases h
  | case2 here part parts hstays ih =>
    rw [List.filter_cons_of_neg (by simpa using hstays)]
    exact ih h
  | case3 here part parts hstays next b hnext hend =>
    rw [List.filter_cons_of_pos (by simpa using hstays), follow_of_not_stays hstays, hnext,
      List.isEmpty_iff.1 hend]
    exact h
  | case4 => cases h
  | case5 here part parts hstays next hnext ih =>
    rw [List.filter_cons_of_pos (by simpa using hstays), follow_of_not_stays hstays, hnext]
    exact ih h
  | case6 => cases h
  | case7 => cases h

/-- Behind a slash the way begins at the root. -/
theorem lookUp_slash (s : Store) (path : String) :
    s.lookUp ("/" ++ path) = s.follow [] (partsOf path) := by
  rw [lookUp, if_neg (by simp), isAbsolute_slash, if_pos rfl, partsOf_slash, follow_of_stays rfl]

/-- **A path to a file still leads there when it is made normal.** -/
theorem lookUp_normalPath (h : s.lookUp path = .file location bytes) :
    s.lookUp (normalPath path) = .file location bytes := by
  have hsteps : s.follow (if isAbsolute path then [] else s.workingDirectory) (stepsOf path) =
      .file location bytes := by
    rw [lookUp] at h
    split at h
    · cases h
    · exact follow_filter h
  -- a way without steps leads to a directory
  have hne : stepsOf path ≠ [] := by
    intro hnil
    rw [hnil, follow] at hsteps
    cases hsteps
  have hparts := partsOf_intercalate_stepsOf hne
  obtain ⟨hrelative, hnempty⟩ : isAbsolute ("/".intercalate (stepsOf path)) = false ∧
      "/".intercalate (stepsOf path) ≠ "" :=
    isAbsolute_of_not_stays fun part hpart => by
      rw [hparts] at hpart
      simpa using List.of_mem_filter hpart
  have hnormal : normalPath path = rootOf path ++ "/".intercalate (stepsOf path) := by
    rw [normalPath, if_neg]
    simp [hne]
  rw [hnormal]
  obtain ⟨habsolute, hroot⟩ | ⟨habsolute, hroot | hroot⟩ := rootOf_cases path
  · rw [habsolute] at hsteps
    rw [hroot, String.empty_append, lookUp, if_neg (by simpa using hnempty), hrelative, hparts]
    exact hsteps
  · rw [habsolute, if_pos rfl] at hsteps
    rw [hroot, lookUp_slash, hparts]
    exact hsteps
  · rw [habsolute, if_pos rfl] at hsteps
    have hslashes : "//" ++ "/".intercalate (stepsOf path) =
        "/" ++ ("/" ++ "/".intercalate (stepsOf path)) := by
      rw [← String.append_assoc]
      rfl
    rw [hroot, hslashes, lookUp_slash, partsOf_slash, follow_of_stays rfl, hparts]
    exact hsteps

end Store

/-! ### Writing one file -/

/-- At the place there is a file at the location, or one can be put there. -/
def Place.Takes (place : Place) (location : Location) : Prop :=
  (∃ bytes, place = .file location bytes) ∨ place = .free location

namespace Store

variable {s : Store} {here location : Location} {path part : String} {parts : List String}
  {bytes : ByteArray}

/-- Where a file can be put there is no directory. -/
theorem get?_ne_directory_of_follow (h : (s.follow here parts).Takes location) :
    s.get? location ≠ some .directory := by
  fun_induction follow s here parts with
  | case1 => simp [Place.Takes] at h
  | case2 here part parts hstays ih => exact ih h
  | case3 here part parts hstays next bytes hnext hend =>
    obtain rfl : next = location := by simpa [Place.Takes] using h
    rw [hnext]
    nofun
  | case4 => simp [Place.Takes] at h
  | case5 here part parts hstays next hnext ih => exact ih h
  | case6 here part parts hstays next hnext hend =>
    obtain rfl : next = location := by simpa [Place.Takes] using h
    rw [hnext]
    nofun
  | case7 => simp [Place.Takes] at h

/-- The way to a file is the same after the file was written. -/
theorem follow_write (h : (s.follow here parts).Takes location) :
    (s.write location bytes).follow here parts = .file location bytes := by
  have hlocation := get?_ne_directory_of_follow h
  fun_induction follow s here parts with
  | case1 => simp [Place.Takes] at h
  | case2 here part parts hstays ih =>
    rw [follow_of_stays hstays]
    exact ih h
  | case3 here part parts hstays next b hnext hend =>
    obtain rfl : next = location := by simpa [Place.Takes] using h
    rw [follow_of_not_stays hstays, get?_write_self]
    exact if_pos hend
  | case4 => simp [Place.Takes] at h
  | case5 here part parts hstays next hnext ih =>
    -- the way goes on through a directory, and where the file is put there is none
    have hne : next ≠ location := by
      rintro rfl
      exact hlocation hnext
    rw [follow_of_not_stays hstays, get?_write_of_ne _ _ hne, hnext]
    exact ih h
  | case6 here part parts hstays next hnext hend =>
    obtain rfl : next = location := by simpa [Place.Takes] using h
    rw [follow_of_not_stays hstays, get?_write_self]
    exact if_pos hend
  | case7 => simp [Place.Takes] at h

/-- **The path leads to the file after it was written.** -/
theorem lookUp_write (bytes : ByteArray) (h : (s.lookUp path).Takes location) :
    (s.write location bytes).lookUp path = .file location bytes := by
  rw [lookUp] at h ⊢
  split
  · rename_i hempty
    rw [if_pos hempty] at h
    exact absurd h (by simp [Place.Takes])
  · rename_i hne
    rw [if_neg hne] at h
    exact follow_write h

end Store

end Pddl
