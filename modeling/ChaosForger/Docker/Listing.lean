import ChaosForger.Docker.Client
import ChaosForger.Json

/-!
# ChaosForger.Docker.Listing

`parse_container_list`: the containers of a list response.  An entry without a
well-formed id is skipped with a warning, so that no other id reaches a
request path (`isValidContainerId_of_mem`).
-/

namespace ChaosForger

open Libc

namespace DockerClient

/-- What parsing a list response leaves. -/
structure Listing where
  ok : Bool
  out : List Container
  err : List UInt8
  warnings : List (List UInt8) := []

/-- Docker reports `/web-app`; the slashes in front go. -/
def normalizeContainerName (raw : List UInt8) : List UInt8 := raw.dropWhile (· == 47)

/-- The usable names of an entry. -/
def readNames (entry : Json) : List (List UInt8) :=
  match entry.find (lit "Names") with
  | some (.array names) =>
      names.filterMap fun
        | .string raw =>
            if normalizeContainerName raw = [] then none else some (normalizeContainerName raw)
        | _ => none
  | _ => []

/-- A descriptive field. -/
def readField (entry : Json) (key : List UInt8) : List UInt8 :=
  match entry.find key with
  | some (.string s) => s
  | _ => []

/-- The container of an entry, or why it is skipped. -/
def readContainer (entry : Json) : Except (List UInt8) Container :=
  match entry.find (lit "Id") with
  | some (.string id) =>
      if ¬ isValidContainerId id then
        .error (lit "container list: entry with malformed Id (len=" ++ decimal id.length ++
          lit "), skipping")
      else
        .ok
          { id, names := readNames entry, image := readField entry (lit "Image")
            state := readField entry (lit "State"), status := readField entry (lit "Status") }
  | _ => .error (lit "container list: entry without string 'Id' field, skipping")

/-- The loop over the entries. -/
def readContainers : List Json → Listing → Listing
  | [], l => l
  | entry :: entries, l =>
      match readContainer entry with
      | .error warning => readContainers entries { l with warnings := l.warnings ++ [warning] }
      | .ok c => readContainers entries { l with out := l.out ++ [c] }

def parseContainerList (toDouble : ℚ → Option ℚ) (body : List UInt8) (out : List Container)
    (err : List UInt8) : Except Fault Listing := do
  match ← JsonParser.parse toDouble body err with
  | (err, none) =>
      return { ok := false, out, err := lit "cannot parse container list JSON: " ++ err }
  | (err, some (.array entries)) => return readContainers entries { ok := true, out, err }
  | (_, some _) => return { ok := false, out, err := lit "container list: expected a JSON array" }

/-! ## The ids -/

theorem isValidContainerId_of_readContainer {entry : Json} {c : Container}
    (h : readContainer entry = .ok c) : isValidContainerId c.id = true := by
  unfold readContainer at h
  split at h
  · next id hid =>
      split at h
      · cases h
      · next hvalid =>
          obtain rfl := Except.ok.inj h
          simpa using hvalid
  · cases h

theorem isValidContainerId_of_readContainers {entries : List Json} {l : Listing}
    (h : ∀ c ∈ l.out, isValidContainerId c.id = true) :
    ∀ c ∈ (readContainers entries l).out, isValidContainerId c.id = true := by
  induction entries generalizing l with
  | nil => exact h
  | cons entry entries ih =>
      rw [readContainers]
      split
      · exact ih h
      · next c hc =>
          refine ih fun d hd => ?_
          rcases List.mem_append.mp hd with hd | hd
          · exact h d hd
          · rw [List.mem_singleton.mp hd]
            exact isValidContainerId_of_readContainer hc

/-- **No other id gets through**, whatever the body holds. -/
theorem isValidContainerId_of_mem {toDouble : ℚ → Option ℚ} {body err : List UInt8} {l : Listing}
    (h : parseContainerList toDouble body [] err = .ok l) :
    ∀ c ∈ l.out, isValidContainerId c.id = true := by
  unfold parseContainerList at h
  cases hparse : JsonParser.parse toDouble body err with
  | error fault => simp [hparse, bind, Except.bind] at h
  | ok r =>
      obtain ⟨err', root⟩ := r
      simp only [hparse, bind, Except.bind] at h
      split at h <;> simp only [pure, Except.pure, Except.ok.injEq] at h <;> subst h
      · simp
      · exact isValidContainerId_of_readContainers (by simp)
      · simp

end DockerClient

end ChaosForger
