import ChaosForger.Http.Headers
import Mathlib.Data.List.Basic

/-!
# ChaosForger.Http.HeaderOrder

What the order of the header lines decides.  The header loop is a fold over
the kinds of the lines (`verdictOf`), the kinds alone say what every order of
the lines gives (`Unambiguous`, `Hopeless`), and the framing is then shown to
be independent of the order exactly under these conditions
(`headerOrder_iff`).
-/

namespace ChaosForger

open Search Libc

namespace HttpResponseParser

/-! ## The loop over the kinds -/

def kindsOf (limits : Limits) (lines : List (List UInt8)) : List LineKind :=
  lines.map (lineKind limits)

/-- The verdict, the framing and the length after header lines of these
kinds.  A rejected line leaves what the lines before it have set. -/
def verdictOf : Framing × Nat → List LineKind → Bool × Framing × Nat
  | s, [] => (true, s)
  | s, .other :: ks => verdictOf s ks
  | s, .chunked :: ks => verdictOf (.chunked, s.2) ks
  | s, .contentLength none :: ks =>
      if s.1 = .chunked then verdictOf s ks else (false, s)
  | s, .contentLength (some n) :: ks =>
      if s.1 = .chunked then verdictOf s ks else verdictOf (.contentLength, n) ks

/-- A rejected line stops the loop. -/
theorem verdictOf_cons_of_none {limits : Limits} {s : Framing × Nat} {line : List UInt8}
    (h : frameLine limits s line = none) (ks : List LineKind) :
    verdictOf s (lineKind limits line :: ks) = (false, s) := by
  unfold frameLine at h
  split at h
  · contradiction
  · contradiction
  · next length hk =>
      split at h
      · contradiction
      · next hs =>
          rw [Option.map_eq_none_iff] at h
          rw [hk, h, verdictOf, if_neg hs]

/-- Any other line hands its framing and length on. -/
theorem verdictOf_cons_of_some {limits : Limits} {s s' : Framing × Nat} {line : List UInt8}
    (h : frameLine limits s line = some s') (ks : List LineKind) :
    verdictOf s (lineKind limits line :: ks) = verdictOf s' ks := by
  unfold frameLine at h
  split at h
  · next hk =>
      rw [Option.some.injEq] at h
      rw [hk, verdictOf, h]
  · next hk =>
      rw [Option.some.injEq] at h
      rw [hk, verdictOf, h]
  · next length hk =>
      rw [hk]
      split at h
      · next hs =>
          rw [Option.some.injEq] at h
          subst h
          cases length with
          | none => rw [verdictOf, if_pos hs]
          | some n => rw [verdictOf, if_pos hs]
      · next hs =>
          rw [Option.map_eq_some_iff] at h
          obtain ⟨n, rfl, rfl⟩ := h
          rw [verdictOf, if_neg hs]

/-- The header loop reports the verdict of the kinds. -/
theorem parseHeaderLines_verdict (p : HttpResponseParser) (lines : List (List UInt8)) :
    ((p.parseHeaderLines lines).2, (p.parseHeaderLines lines).1.framing,
      (p.parseHeaderLines lines).1.contentLength) =
        verdictOf (p.framing, p.contentLength) (kindsOf p.limits lines) := by
  induction lines generalizing p with
  | nil => rfl
  | cons line lines ih =>
      rw [parseHeaderLines, kindsOf, List.map_cons]
      obtain ⟨fr, n, hf, hp⟩ | ⟨msg, hf, hp⟩ := parseHeaderLine_spec p line
      · rw [hp, verdictOf_cons_of_some hf]
        exact ih { p with framing := fr, contentLength := n }
      · obtain ⟨-, -, -, hfr, hn⟩ := fail_keeps p msg
        rw [hp, verdictOf_cons_of_none hf]
        exact congrArg (Prod.mk false) (Prod.ext hfr hn)

theorem framingVerdict_of_kinds (p : HttpResponseParser) {status : List UInt8}
    {lines : List (List UInt8)} (hs : CrlfFree status) (hls : ∀ l ∈ lines, BlockLine l)
    (hne : lines ≠ []) (body : List UInt8) :
    p.framingVerdict (headerBlock status lines) body =
      some (verdictOf (.none, p.contentLength) (kindsOf p.limits lines)) := by
  rw [framingVerdict_of_lines p hs hls hne body]
  exact congrArg some (parseHeaderLines_verdict { p with framing := .none } lines)

/-! ## One law per case -/

section Laws

variable {s : Framing × Nat} {ks : List LineKind}

/-- Once chunked, nothing changes any more. -/
theorem verdictOf_of_framed (h : s.1 = .chunked) : verdictOf s ks = (true, s) := by
  induction ks with
  | nil => rfl
  | cons k ks ih =>
      obtain ⟨fr, n⟩ := s
      obtain rfl : fr = .chunked := h
      obtain _ | _ | _ | n := k
      · exact ih
      · exact ih
      · rw [verdictOf, if_pos rfl, ih]
      · rw [verdictOf, if_pos rfl, ih]

/-- Without a bad length, chunked wins. -/
theorem verdictOf_of_chunked (hbad : .contentLength none ∉ ks) (hch : .chunked ∈ ks) :
    ∃ n, verdictOf s ks = (true, .chunked, n) := by
  induction ks generalizing s with
  | nil => contradiction
  | cons k ks ih =>
      rw [List.mem_cons, not_or] at hbad
      obtain _ | _ | _ | n := k
      · exact ih hbad.2 (by simpa using hch)
      · rw [verdictOf]
        exact ⟨s.2, verdictOf_of_framed rfl⟩
      · exact absurd rfl hbad.1
      · rw [verdictOf]
        split
        · exact ih hbad.2 (by simpa using hch)
        · exact ih hbad.2 (by simpa using hch)

/-- Without chunked and without any length, the framing stays. -/
theorem verdictOf_of_unframed (hch : .chunked ∉ ks) (hcl : ∀ l, .contentLength l ∉ ks) :
    verdictOf s ks = (true, s) := by
  induction ks with
  | nil => rfl
  | cons k ks ih =>
      rw [List.mem_cons, not_or] at hch
      have hrest : ∀ l, .contentLength l ∉ ks := fun l hl => hcl l (List.mem_cons_of_mem _ hl)
      obtain _ | _ | l := k
      · exact ih hch.2 hrest
      · exact absurd rfl hch.1
      · exact absurd List.mem_cons_self (hcl l)

/-- Without chunked and without a bad length, the last length wins. -/
theorem verdictOf_concat_length (hs : s.1 ≠ .chunked) (hch : .chunked ∉ ks)
    (hbad : .contentLength none ∉ ks) (m : Nat) :
    verdictOf s (ks ++ [.contentLength (some m)]) = (true, .contentLength, m) := by
  induction ks generalizing s with
  | nil => rw [List.nil_append, verdictOf, if_neg hs, verdictOf]
  | cons k ks ih =>
      rw [List.mem_cons, not_or] at hch hbad
      rw [List.cons_append]
      obtain _ | _ | _ | n := k
      · exact ih hs hch.2 hbad.2
      · exact absurd rfl hch.1
      · exact absurd rfl hbad.1
      · rw [verdictOf, if_neg hs]
        exact ih (by simp) hch.2 hbad.2

/-- So a single length repeated in every length line is the one. -/
theorem verdictOf_of_length (hs : s.1 ≠ .chunked) (hch : .chunked ∉ ks)
    (hbad : .contentLength none ∉ ks) {m : Nat} (hm : .contentLength (some m) ∈ ks)
    (heq : ∀ n, .contentLength (some n) ∈ ks → n = m) :
    verdictOf s ks = (true, .contentLength, m) := by
  induction ks generalizing s with
  | nil => contradiction
  | cons k ks ih =>
      rw [List.mem_cons, not_or] at hch hbad
      have hrest : ∀ n, .contentLength (some n) ∈ ks → n = m := fun n hn =>
        heq n (List.mem_cons_of_mem _ hn)
      obtain _ | _ | _ | n := k
      · exact ih hs hch.2 hbad.2 (by simpa using hm) hrest
      · exact absurd rfl hch.1
      · exact absurd rfl hbad.1
      · obtain rfl := heq n List.mem_cons_self
        rw [verdictOf, if_neg hs]
        by_cases hmem : .contentLength (some n) ∈ ks
        · exact ih (by simp) hch.2 hbad.2 hmem hrest
        · refine verdictOf_of_unframed hch.2 fun l hl => ?_
          cases l with
          | none => exact hbad.2 hl
          | some n' => exact hmem (hrest n' hl ▸ hl)

/-- Without chunked a bad length is fatal, wherever it stands. -/
theorem verdictOf_of_bad (hs : s.1 ≠ .chunked) (hch : .chunked ∉ ks)
    (hbad : .contentLength none ∈ ks) : (verdictOf s ks).1 = false := by
  induction ks generalizing s with
  | nil => contradiction
  | cons k ks ih =>
      rw [List.mem_cons, not_or] at hch
      obtain _ | _ | _ | n := k
      · exact ih hs hch.2 (by simpa using hbad)
      · exact absurd rfl hch.1
      · rw [verdictOf, if_neg hs]
      · rw [verdictOf, if_neg hs]
        exact ih (by simp) hch.2 (by simpa using hbad)

/-- With no good length either, it leaves the framing as it was. -/
theorem verdictOf_of_only_bad (hs : s.1 ≠ .chunked) (hch : .chunked ∉ ks)
    (hbad : .contentLength none ∈ ks) (hcl : ∀ n, .contentLength (some n) ∉ ks) :
    verdictOf s ks = (false, s) := by
  induction ks with
  | nil => contradiction
  | cons k ks ih =>
      rw [List.mem_cons, not_or] at hch
      have hrest : ∀ n, .contentLength (some n) ∉ ks := fun n hn =>
        hcl n (List.mem_cons_of_mem _ hn)
      obtain _ | _ | _ | n := k
      · exact ih hch.2 (by simpa using hbad) hrest
      · exact absurd rfl hch.1
      · rw [verdictOf, if_neg hs]
      · exact absurd List.mem_cons_self (hcl n)

/-- Without chunked a length is never lost again, not even to a rejection. -/
theorem verdictOf_keeps_contentLength (hs : s.1 = .contentLength) (hch : .chunked ∉ ks) :
    (verdictOf s ks).2.1 = .contentLength := by
  induction ks generalizing s with
  | nil => exact hs
  | cons k ks ih =>
      rw [List.mem_cons, not_or] at hch
      have hne : s.1 ≠ .chunked := by simp [hs]
      obtain _ | _ | _ | n := k
      · exact ih hs hch.2
      · exact absurd rfl hch.1
      · rwa [verdictOf, if_neg hne]
      · rw [verdictOf, if_neg hne]
        exact ih rfl hch.2

end Laws

/-! ## Reordering -/

section Reordering

variable {limits : Limits} {lines : List (List UInt8)} {k : LineKind}

theorem kindsOf_perm {ms : List (List UInt8)} (h : lines.Perm ms) :
    (kindsOf limits lines).Perm (kindsOf limits ms) := h.map _

/-- Any line can be brought to the front. -/
theorem exists_perm_front (hk : k ∈ kindsOf limits lines) :
    ∃ ms ks, lines.Perm ms ∧ kindsOf limits ms = k :: ks ∧ (kindsOf limits lines).Perm (k :: ks) := by
  obtain ⟨l, hl, rfl⟩ := List.mem_map.mp hk
  have hperm := List.perm_cons_erase hl
  exact ⟨_, _, hperm, rfl, kindsOf_perm hperm⟩

/-- Any line can be moved to the end. -/
theorem exists_perm_back (hk : k ∈ kindsOf limits lines) :
    ∃ ms ks, lines.Perm ms ∧ kindsOf limits ms = ks ++ [k] ∧
      (kindsOf limits lines).Perm (ks ++ [k]) := by
  obtain ⟨l, hl, rfl⟩ := List.mem_map.mp hk
  have hperm := (List.perm_cons_erase hl).trans (List.perm_append_singleton l _).symm
  have hmap : kindsOf limits (lines.erase l ++ [l]) =
      kindsOf limits (lines.erase l) ++ [lineKind limits l] := by
    simp only [kindsOf, List.map_append, List.map_cons, List.map_nil]
  exact ⟨_, _, hperm, hmap, hmap ▸ kindsOf_perm hperm⟩

end Reordering

/-- What a verdict is used for: the framing counts on a rejected block too,
the length only with the framing that reads it. -/
def shown : Bool × Framing × Nat → Bool × Framing × Option Nat
  | (ok, fr, n) => (ok, fr, if fr = .contentLength then some n else none)

/-- The same without what a rejected block leaves behind. -/
def taken (v : Bool × Framing × Nat) : Option (Framing × Option Nat) :=
  if (shown v).1 then some (shown v).2 else none

/-- Lines that frame the body in one way only: no bad length, and chunked or
a single length. -/
def Unambiguous (ks : List LineKind) : Prop :=
  .contentLength none ∉ ks ∧ (.chunked ∈ ks ∨
    ∀ m n, .contentLength (some m) ∈ ks → .contentLength (some n) ∈ ks → m = n)

theorem Unambiguous.of_perm {ks ks' : List LineKind} (h : Unambiguous ks) (hp : ks.Perm ks') :
    Unambiguous ks' := by
  unfold Unambiguous at h ⊢
  simpa only [hp.mem_iff] using h

/-- One way only is one verdict. -/
theorem shown_of_unambiguous {s : Framing × Nat} {ks ks' : List LineKind} (hs : s.1 ≠ .chunked)
    (h : Unambiguous ks) (hp : ks.Perm ks') :
    shown (verdictOf s ks') = shown (verdictOf s ks) := by
  have h' := h.of_perm hp
  by_cases hch : .chunked ∈ ks
  · obtain ⟨n, hn⟩ := verdictOf_of_chunked (s := s) h.1 hch
    obtain ⟨n', hn'⟩ := verdictOf_of_chunked (s := s) h'.1 (hp.mem_iff.mp hch)
    simp [hn, hn', shown]
  · have hch' : .chunked ∉ ks' := fun hc => hch (hp.mem_iff.mpr hc)
    by_cases hcl : ∃ m, .contentLength (some m) ∈ ks
    · obtain ⟨m, hm⟩ := hcl
      have heq := fun n hn => h.2.resolve_left hch n m hn hm
      rw [verdictOf_of_length hs hch h.1 hm heq,
        verdictOf_of_length hs hch' h'.1 (hp.mem_iff.mp hm) fun n hn => heq n (hp.mem_iff.mpr hn)]
    · have hnone : ∀ l, .contentLength l ∉ ks := by
        rintro (_ | m) hl
        · exact h.1 hl
        · exact hcl ⟨m, hl⟩
      rw [verdictOf_of_unframed hch hnone,
        verdictOf_of_unframed hch' fun l hl => hnone l (hp.mem_iff.mpr hl)]

/-- Lines without chunked whose lengths are all bad: every order fails at once. -/
def Hopeless (ks : List LineKind) : Prop :=
  .chunked ∉ ks ∧ ∀ n, .contentLength (some n) ∉ ks

theorem verdictOf_of_hopeless {s : Framing × Nat} {ks ks' : List LineKind} (hs : s.1 ≠ .chunked)
    (h : Hopeless ks) (hp : ks.Perm ks') : verdictOf s ks' = verdictOf s ks := by
  have hch' : .chunked ∉ ks' := fun hc => h.1 (hp.mem_iff.mpr hc)
  have hcl' : ∀ n, .contentLength (some n) ∉ ks' := fun n hn => h.2 n (hp.mem_iff.mpr hn)
  by_cases hbad : .contentLength none ∈ ks
  · rw [verdictOf_of_only_bad hs h.1 hbad h.2,
      verdictOf_of_only_bad hs hch' (hp.mem_iff.mp hbad) hcl']
  · have hnone : ∀ l, .contentLength l ∉ ks := by
      rintro (_ | m) hl
      · exact hbad hl
      · exact h.2 m hl
    rw [verdictOf_of_unframed h.1 hnone,
      verdictOf_of_unframed hch' fun l hl => hnone l (hp.mem_iff.mpr hl)]

section Orders

variable {limits : Limits} {lines : List (List UInt8)} {s : Framing × Nat} (hs : s.1 ≠ .chunked)
include hs

/-- With chunked a bad length must not come first. -/
theorem not_bad_of_taken
    (h : ∀ ms, lines.Perm ms → taken (verdictOf s (kindsOf limits ms)) =
      taken (verdictOf s (kindsOf limits lines))) (hch : .chunked ∈ kindsOf limits lines) :
    .contentLength none ∉ kindsOf limits lines := by
  intro hbad
  obtain ⟨ms, ks, hp, hks, -⟩ := exists_perm_front hch
  obtain ⟨ms', ks', hp', hks', -⟩ := exists_perm_front hbad
  have hfirst : verdictOf s (.chunked :: ks) = (true, .chunked, s.2) := by
    rw [verdictOf]
    exact verdictOf_of_framed rfl
  have hlast : verdictOf s (.contentLength none :: ks') = (false, s) := by
    rw [verdictOf, if_neg hs]
  have heq := (h ms hp).trans (h ms' hp').symm
  rw [hks, hks', hfirst, hlast] at heq
  simp [taken, shown] at heq

/-- Two lengths that both come last are the same. -/
theorem unambiguous_of_taken
    (h : ∀ ms, lines.Perm ms → taken (verdictOf s (kindsOf limits ms)) =
      taken (verdictOf s (kindsOf limits lines)))
    (hbad : .contentLength none ∉ kindsOf limits lines) : Unambiguous (kindsOf limits lines) := by
  refine ⟨hbad, or_iff_not_imp_left.mpr fun hch m n hm hn => ?_⟩
  have hlast : ∀ k, .contentLength (some k) ∈ kindsOf limits lines →
      taken (verdictOf s (kindsOf limits lines)) = some (.contentLength, some k) := by
    intro k hk
    obtain ⟨ms, ks, hp, hks, hpk⟩ := exists_perm_back hk
    have hin : ∀ {k'}, k' ∈ ks → k' ∈ kindsOf limits lines := fun hk' =>
      hpk.mem_iff.mpr (List.mem_append_left _ hk')
    have hv := verdictOf_concat_length hs (fun hc => hch (hin hc)) (fun hb => hbad (hin hb)) k
    rw [← h ms hp, hks, hv]
    rfl
  have heq := (hlast m hm).symm.trans (hlast n hn)
  simpa using heq

/-- When a rejected block leaves nothing behind, a bad length without chunked
is no obstacle. -/
theorem taken_perm_iff :
    (∀ ms, lines.Perm ms → taken (verdictOf s (kindsOf limits ms)) =
      taken (verdictOf s (kindsOf limits lines))) ↔
      Unambiguous (kindsOf limits lines) ∨
        .contentLength none ∈ kindsOf limits lines ∧ .chunked ∉ kindsOf limits lines := by
  constructor
  · intro h
    by_cases hbad : .contentLength none ∈ kindsOf limits lines
    · exact .inr ⟨hbad, fun hch => not_bad_of_taken hs h hch hbad⟩
    · exact .inl (unambiguous_of_taken hs h hbad)
  · rintro (h | ⟨hbad, hch⟩) ms hp
    · rw [taken, shown_of_unambiguous hs h (kindsOf_perm hp), taken]
    · have hpk : (kindsOf limits lines).Perm (kindsOf limits ms) := kindsOf_perm hp
      have hms := verdictOf_of_bad hs (fun hc => hch (hpk.mem_iff.mpr hc)) (hpk.mem_iff.mp hbad)
      have hlines := verdictOf_of_bad hs hch hbad
      simp [taken, shown, hms, hlines]

end Orders

/-- **The loop is independent of the order** when the lines are unambiguous or
hopeless, and in no other case. -/
theorem shown_perm_iff {limits : Limits} {lines : List (List UInt8)} {s : Framing × Nat}
    (hs : s.1 = .none) :
    (∀ ms, lines.Perm ms → shown (verdictOf s (kindsOf limits ms)) =
      shown (verdictOf s (kindsOf limits lines))) ↔
      Unambiguous (kindsOf limits lines) ∨ Hopeless (kindsOf limits lines) := by
  have hne : s.1 ≠ .chunked := by simp [hs]
  constructor
  · intro h
    have htaken : ∀ ms, lines.Perm ms → taken (verdictOf s (kindsOf limits ms)) =
        taken (verdictOf s (kindsOf limits lines)) := fun ms hp => by
      rw [taken, h ms hp, taken]
    by_cases hbad : .contentLength none ∈ kindsOf limits lines
    · have hch : .chunked ∉ kindsOf limits lines := fun hch =>
        not_bad_of_taken hne htaken hch hbad
      refine .inr ⟨hch, fun n hn => ?_⟩
      -- the good length first, then the bad one first
      obtain ⟨ms, ks, hp, hks, hpk⟩ := exists_perm_front hn
      obtain ⟨ms', ks', hp', hks', -⟩ := exists_perm_front hbad
      have hgood : (verdictOf s (.contentLength (some n) :: ks)).2.1 = .contentLength := by
        rw [verdictOf, if_neg hne]
        exact verdictOf_keeps_contentLength rfl fun hc =>
          hch (hpk.mem_iff.mpr (List.mem_cons_of_mem _ hc))
      have hfail : verdictOf s (.contentLength none :: ks') = (false, s) := by
        rw [verdictOf, if_neg hne]
      have heq := (h ms hp).trans (h ms' hp').symm
      rw [hks, hks', hfail] at heq
      have hfr := congrArg (fun v => v.2.1) heq
      simp only [shown, hgood, hs] at hfr
      contradiction
    · exact .inl (unambiguous_of_taken hne htaken hbad)
  · rintro (h | h) ms hp
    · exact shown_of_unambiguous hne h (kindsOf_perm hp)
    · rw [verdictOf_of_hopeless hne h (kindsOf_perm hp)]

/-! ## The header block -/

/-- What `f` shows of the verdict on a block is the same for every order of
its header lines. -/
def OrderFree {β : Type} (p : HttpResponseParser) (f : Bool × Framing × Nat → β)
    (status : List UInt8) (lines : List (List UInt8)) (body : List UInt8) : Prop :=
  ∀ ms, lines.Perm ms → (p.framingVerdict (headerBlock status ms) body).map f =
    (p.framingVerdict (headerBlock status lines) body).map f

/-- Chunked frames the body in every order of the header lines. -/
def ChunkedWins (p : HttpResponseParser) (status : List UInt8) (lines : List (List UInt8))
    (body : List UInt8) : Prop :=
  ∀ ms, lines.Perm ms → ∃ n, p.framingVerdict (headerBlock status ms) body =
    some (true, .chunked, n)

theorem orderFree_iff {β : Type} (p : HttpResponseParser) (f : Bool × Framing × Nat → β)
    {status : List UInt8} {lines : List (List UInt8)} (hs : CrlfFree status)
    (hls : ∀ l ∈ lines, BlockLine l) (body : List UInt8) :
    p.OrderFree f status lines body ↔
      ∀ ms, lines.Perm ms → f (verdictOf (.none, p.contentLength) (kindsOf p.limits ms)) =
        f (verdictOf (.none, p.contentLength) (kindsOf p.limits lines)) := by
  refine forall₂_congr fun ms hp => ?_
  by_cases hne : lines = []
  · subst hne
    obtain rfl := hp.nil_eq
    simp
  · have hne' : ms ≠ [] := fun hm => hne (hm ▸ hp).eq_nil
    have hms : ∀ l ∈ ms, BlockLine l := fun l hl => hls l (hp.mem_iff.mpr hl)
    rw [framingVerdict_of_kinds p hs hls hne, framingVerdict_of_kinds p hs hms hne']
    simp

/-- Chunked wins over everything but a bad length. -/
theorem chunkedWins_of_not_bad (p : HttpResponseParser) {status : List UInt8}
    {lines : List (List UInt8)} (hs : CrlfFree status) (hls : ∀ l ∈ lines, BlockLine l)
    (body : List UInt8) (hbad : .contentLength none ∉ kindsOf p.limits lines)
    (hch : .chunked ∈ kindsOf p.limits lines) : p.ChunkedWins status lines body := by
  intro ms hp
  have hms : ∀ l ∈ ms, BlockLine l := fun l hl => hls l (hp.mem_iff.mpr hl)
  have hpk : (kindsOf p.limits lines).Perm (kindsOf p.limits ms) := kindsOf_perm hp
  have hne : ms ≠ [] := by
    rintro rfl
    simpa [kindsOf] using hpk.mem_iff.mp hch
  obtain ⟨n, hn⟩ := verdictOf_of_chunked (s := (.none, p.contentLength))
    (fun hb => hbad (hpk.mem_iff.mpr hb)) (hpk.mem_iff.mp hch)
  exact ⟨n, by rw [framingVerdict_of_kinds p hs hms hne, hn]⟩

/-- **Header order.** Every order of the header lines gives the same verdict,
framing and length, chunked winning where it occurs, exactly when the lines
are unambiguous or hopeless.  Without regard to what a rejected block leaves
behind, a bad length in lines without chunked is tolerable too. -/
theorem headerOrder_iff (p : HttpResponseParser) {status : List UInt8}
    {lines : List (List UInt8)} (hs : CrlfFree status) (hls : ∀ l ∈ lines, BlockLine l)
    (body : List UInt8) :
    ((p.OrderFree shown status lines body ∧
        (.chunked ∈ kindsOf p.limits lines → p.ChunkedWins status lines body)) ↔
      Unambiguous (kindsOf p.limits lines) ∨ Hopeless (kindsOf p.limits lines)) ∧
    (p.OrderFree taken status lines body ↔
      Unambiguous (kindsOf p.limits lines) ∨
        .contentLength none ∈ kindsOf p.limits lines ∧ .chunked ∉ kindsOf p.limits lines) := by
  rw [orderFree_iff p shown hs hls, orderFree_iff p taken hs hls, shown_perm_iff rfl,
    taken_perm_iff (by simp)]
  refine ⟨⟨And.left, fun h => ⟨h, fun hch => ?_⟩⟩, Iff.rfl⟩
  obtain h | h := h
  · exact chunkedWins_of_not_bad p hs hls body h.1 hch
  · exact absurd hch h.1

theorem headerOrder_iff_two :
    ((new true {}).OrderFree shown (lit "HTTP/1.1 200 OK")
        [lit "Content-Length: 5", lit "Transfer-Encoding: chunked"] [] ∧
      (.chunked ∈ kindsOf {} [lit "Content-Length: 5", lit "Transfer-Encoding: chunked"] →
        (new true {}).ChunkedWins (lit "HTTP/1.1 200 OK")
          [lit "Content-Length: 5", lit "Transfer-Encoding: chunked"] [])) :=
  (headerOrder_iff (new true {}) (by decide) (by decide) []).1.mpr
    (.inl ⟨by decide +kernel, .inl (by decide +kernel)⟩)

/-- Two conflicting lengths: the last one wins.  A malformed length: fatal in
front of chunked, skipped behind it. -/
theorem headerOrder_conflict :
    ¬ (new true {}).OrderFree shown (lit "HTTP/1.1 200 OK")
        [lit "Content-Length: 5", lit "Content-Length: 3"] [] ∧
      ¬ (new true {}).OrderFree taken (lit "HTTP/1.1 200 OK")
        [lit "Content-Length: 5", lit "Content-Length: 3"] [] ∧
      ¬ (new true {}).OrderFree taken (lit "HTTP/1.1 200 OK")
        [lit "Content-Length: x", lit "Transfer-Encoding: chunked"] [] := by
  refine ⟨fun h => ?_, fun h => ?_, fun h => ?_⟩
  all_goals
    have hswap := h _ (List.Perm.swap _ _ [])
    revert hswap
    decide +kernel

end HttpResponseParser

end ChaosForger
