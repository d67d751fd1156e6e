import ChaosForger.Docker.Listing
import ChaosForger.Json.Values

/-!
# ChaosForger.Docker.Entries

What each entry of a list response contributes, whatever stands beside it.

An entry that is to be listed (`Listed`) gives one container (`Contributes`),
any other one gives none, and the containers of a list are those of its
entries, in order (`parseContainerList_entries`).
-/

namespace ChaosForger

open Libc

namespace DockerClient

/-! ## What an entry says -/

/-- Sixty-four hex digits. -/
def IdText (id : List UInt8) : Prop := id.length = 64 ∧ id.all isxdigit = true

/-- The entry is an object with a string `Id` of sixty-four hex digits. -/
def Listed (entry : Json) : Prop := ∃ id, entry.find (lit "Id") = some (.string id) ∧ IdText id

/-- The strings among the elements of an array; anything else has none. -/
def stringsOf : Option Json → List (List UInt8)
  | some (.array elements) =>
      elements.filterMap fun
        | .string s => some s
        | _ => none
  | _ => []

/-- The text of a string; anything else has none. -/
def textOf : Option Json → List UInt8
  | some (.string s) => s
  | _ => []

/-- The container an entry describes. -/
structure Contributes (entry : Json) (c : Container) : Prop where
  id : entry.find (lit "Id") = some (.string c.id)
  idText : IdText c.id
  names : c.names =
    ((stringsOf (entry.find (lit "Names"))).map fun raw => raw.dropWhile (· == 47)).filter (· ≠ [])
  image : c.image = textOf (entry.find (lit "Image"))
  state : c.state = textOf (entry.find (lit "State"))
  status : c.status = textOf (entry.find (lit "Status"))

theorem idText_iff {id : List UInt8} : isValidContainerId id = true ↔ IdText id := by
  simp [isValidContainerId_iff, IdText]

theorem readNames_eq (entry : Json) : readNames entry =
    ((stringsOf (entry.find (lit "Names"))).map fun raw => raw.dropWhile (· == 47)).filter (· ≠ []) := by
  have hkeep (name : List UInt8) :
      (if name = [] then none else some name) = Option.guard (· ≠ []) name := by
    by_cases hname : name = [] <;> simp [hname, Option.guard]
  unfold readNames
  cases entry.find (lit "Names") with
  | none => rfl
  | some v =>
      cases v with
      | array elements =>
          simp only [stringsOf]
          rw [← List.filterMap_eq_filter, List.filterMap_map, List.filterMap_filterMap]
          refine List.filterMap_congr fun name _ => ?_
          cases name with
          | string raw =>
              exact hkeep _
          | _ => rfl
      | _ => rfl

theorem readField_eq (entry : Json) (key : List UInt8) :
    readField entry key = textOf (entry.find key) := by
  unfold readField
  cases entry.find key with
  | none => rfl
  | some v => cases v <;> rfl

/-- Only objects have members. -/
theorem not_listed_of_ne {entry : Json} (h : ∀ obj, entry ≠ .object obj) : ¬ Listed entry := by
  rintro ⟨id, hid, -⟩
  cases entry with
  | object obj => exact h obj rfl
  | _ => simp [Json.find] at hid

/-- The reading of an entry, as the container it describes. -/
theorem readContainer_ok_iff {entry : Json} {c : Container} :
    readContainer entry = .ok c ↔ Contributes entry c := by
  unfold readContainer
  constructor
  · intro h
    split at h
    · next id hid =>
        split at h
        · cases h
        · next hvalid =>
            rw [not_not] at hvalid
            obtain rfl := Except.ok.inj h
            exact ⟨hid, idText_iff.mp hvalid, readNames_eq entry, readField_eq _ _,
              readField_eq _ _, readField_eq _ _⟩
    · cases h
  · rintro ⟨hid, htext, hnames, himage, hstate, hstatus⟩
    rw [hid]
    dsimp only
    rw [if_neg (not_not.mpr (idText_iff.mpr htext)), readNames_eq, readField_eq,
      readField_eq, readField_eq, ← hnames, ← himage, ← hstate, ← hstatus]

theorem listed_iff {entry : Json} : Listed entry ↔ ∃ c, Contributes entry c := by
  constructor
  · rintro ⟨id, hid, htext⟩
    exact ⟨⟨id, _, _, _, _⟩, hid, htext, rfl, rfl, rfl, rfl⟩
  · rintro ⟨c, h⟩
    exact ⟨c.id, h.id, h.idText⟩

/-! ## What a list says -/

/-- The container of an entry, if it has one. -/
def contribution (entry : Json) : List Container := (readContainer entry).toOption.toList

/-- The containers of some entries. -/
def contributions (entries : List Json) : List Container := entries.flatMap contribution

theorem contribution_of_contributes {entry : Json} {c : Container} (h : Contributes entry c) :
    contribution entry = [c] := by
  rw [contribution, readContainer_ok_iff.mpr h]
  rfl

theorem contribution_of_not_listed {entry : Json} (h : ¬ Listed entry) :
    contribution entry = [] := by
  unfold contribution
  cases hread : readContainer entry with
  | error warning => rfl
  | ok c => exact absurd (listed_iff.mpr ⟨c, readContainer_ok_iff.mp hread⟩) h

/-- **The loop appends what the entries contribute**, one after the other. -/
theorem readContainers_eq (entries : List Json) (l : Listing) :
    (readContainers entries l).ok = l.ok ∧
      (readContainers entries l).out = l.out ++ contributions entries := by
  induction entries generalizing l with
  | nil => exact ⟨rfl, (List.append_nil _).symm⟩
  | cons entry entries ih =>
      rw [readContainers, contributions, List.flatMap_cons, ← contributions, contribution]
      cases readContainer entry with
      | error warning => exact ih _
      | ok c =>
          obtain ⟨hok, hout⟩ := ih { l with out := l.out ++ [c] }
          exact ⟨hok, hout.trans (List.append_assoc ..)⟩

/-- A listed container has a valid id, and usable names only. -/
theorem clean_of_mem_contributions {entries : List Json} {c : Container}
    (h : c ∈ contributions entries) :
    IdText c.id ∧ ∀ name ∈ c.names, name ≠ [] ∧ name.head? ≠ some 47 := by
  obtain ⟨entry, -, hc⟩ := List.mem_flatMap.mp h
  have hcontributes : Contributes entry c := by
    rw [contribution, Option.mem_toList] at hc
    cases hread : readContainer entry with
    | error warning => simp [hread, Except.toOption] at hc
    | ok d =>
        obtain rfl : d = c := by simpa [hread, Except.toOption] using hc
        exact readContainer_ok_iff.mp hread
  refine ⟨hcontributes.idText, fun name hname => ?_⟩
  rw [hcontributes.names, List.mem_filter] at hname
  obtain ⟨raw, -, rfl⟩ := List.mem_map.mp hname.1
  refine ⟨by simpa using hname.2, fun hslash => ?_⟩
  have := List.head?_dropWhile_not (· == 47) raw
  simp [hslash] at this

/-- **One bad entry never affects the others.**  A body that is no array of
JSON fails with `out` as it was; of an array, the containers of the entries are
appended, each entry giving its own whatever the others are. -/
theorem parseContainerList_entries (toDouble : ℚ → Option ℚ) :
    ∃ containers : List Json → List Container,
      (∀ xs ys, containers (xs ++ ys) = containers xs ++ containers ys) ∧
      (∀ entry, (∀ obj, entry ≠ .object obj) → containers [entry] = []) ∧
      (∀ entry, ¬ Listed entry → containers [entry] = []) ∧
      (∀ entry, Listed entry → ∃ c, containers [entry] = [c] ∧ Contributes entry c) ∧
      (∀ entries, ∀ c ∈ containers entries,
        IdText c.id ∧ ∀ name ∈ c.names, name ≠ [] ∧ name.head? ≠ some 47) ∧
      ∀ body out err, ∃ l, parseContainerList toDouble body out err = .ok l ∧
        (l.ok = false ↔ ¬ ∃ entries,
          JsonParser.parse toDouble body err = .ok (err, some (.array entries))) ∧
        (l.ok = false → l.out = out) ∧
        ∀ entries, JsonParser.parse toDouble body err = .ok (err, some (.array entries)) →
          l.out = out ++ containers entries := by
  have hnone (entry : Json) (h : ¬ Listed entry) : contributions [entry] = [] := by
    rw [contributions, List.flatMap_singleton, contribution_of_not_listed h]
  refine ⟨contributions, fun xs ys => List.flatMap_append,
    fun entry h => hnone entry (not_listed_of_ne h), hnone, fun entry h => ?_,
    fun entries c => clean_of_mem_contributions, fun body out err => ?_⟩
  · obtain ⟨c, hc⟩ := listed_iff.mp h
    exact ⟨c, by rw [contributions, List.flatMap_singleton, contribution_of_contributes hc], hc⟩
  · obtain ⟨err', o, hparse, hspec⟩ := JsonParser.parse_spec toDouble body err
    simp only [parseContainerList, hparse, bind, Except.bind, pure, Except.pure]
    cases o with
    | none => exact ⟨_, rfl, by simp⟩
    | some root =>
        obtain rfl := (hspec root rfl).1
        cases root with
        | array entries =>
            obtain ⟨hok, hout⟩ := readContainers_eq entries { ok := true, out, err := err' }
            exact ⟨_, rfl, by simp [hok], by simp [hok], by simpa using hout⟩
        | _ => exact ⟨_, rfl, by simp⟩

end DockerClient

end ChaosForger
