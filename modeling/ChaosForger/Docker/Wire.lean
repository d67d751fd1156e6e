import ChaosForger.Docker.Client
import ChaosForger.Libc.Numeral

/-!
# ChaosForger.Docker.Wire

The bytes of a stop or kill call, as a server takes them apart: lines, the
words of the request line, and from these the call itself, so that different
calls never look the same (`wire_injective`).
-/

namespace ChaosForger

open Libc

namespace DockerClient

/-! ## Well-formed calls -/

/-- The call names a container by 64 hex digits and, for a stop, gives it
between 1 and 600 seconds. -/
def WellFormed : StrikeCall → Prop
  | .stopContainer id timeoutSeconds =>
      (id.length = 64 ∧ ∀ c ∈ id, isxdigit c = true) ∧ 1 ≤ timeoutSeconds ∧ timeoutSeconds ≤ 600
  | .killContainer id => id.length = 64 ∧ ∀ c ∈ id, isxdigit c = true

/-- The client's checks are these. -/
theorem valid_iff (call : StrikeCall) : Valid call ↔ WellFormed call := by
  cases call <;> simp only [Valid, WellFormed, isValidContainerId_iff]

/-! ## Lines and words -/

/-- No byte of the text ends a line or a word. -/
def Clean (s : List UInt8) : Prop := ∀ c ∈ s, c ≠ 13 ∧ c ≠ 10 ∧ c ≠ 32

instance (s : List UInt8) : Decidable (Clean s) := inferInstanceAs (Decidable (∀ c ∈ s, _))

theorem Clean.append {s t : List UInt8} (hs : Clean s) (ht : Clean t) : Clean (s ++ t) :=
  fun c hc => (List.mem_append.mp hc).elim (hs c) (ht c)

theorem clean_of_isxdigit {s : List UInt8} (h : ∀ c ∈ s, isxdigit c = true) : Clean s :=
  fun c hc => forall_byte (P := fun c => isxdigit c = true → c ≠ 13 ∧ c ≠ 10 ∧ c ≠ 32)
    (by decide +kernel) c (h c hc)

theorem clean_decimal (n : Nat) : Clean (decimal n) :=
  clean_of_isxdigit fun c hc => (of_isdigit (List.all_eq_true.mp (all_isdigit_decimal n) c hc)).1

/-- The target adds nothing of its own to the request line. -/
theorem clean_target {call : StrikeCall} (h : WellFormed call) : Clean (target call) := by
  have hfront : Clean (lit "/v1.41/containers/") := by decide +kernel
  have hstop : Clean (lit "/stop?t=") := by decide +kernel
  have hkill : Clean (lit "/kill?signal=SIGKILL") := by decide +kernel
  cases call with
  | stopContainer id n =>
      obtain ⟨⟨-, hid⟩, hn, -⟩ := h
      obtain ⟨n, rfl⟩ := Int.eq_ofNat_of_zero_le (Int.le_trans (by decide) hn)
      exact ((hfront.append (clean_of_isxdigit hid)).append hstop).append (clean_decimal n)
  | killContainer id =>
      obtain ⟨-, hid⟩ := h
      exact (hfront.append (clean_of_isxdigit hid)).append hkill

/-- One request as a server takes it apart: lines that end in CR LF, the first
one of three words, one blank line and nothing behind it. -/
structure OneRequest (bytes method target : List UInt8) (fields : List (List UInt8)) : Prop where
  lines : ∃ line, bytes.splitOn 10 = (line :: fields ++ [[]]).map (· ++ [13]) ++ [[]] ∧
    line.splitOn 32 = [method, target, lit "HTTP/1.1"]
  fields_ne : ∀ field ∈ fields, field ≠ []

/-- The header fields of every call. -/
def callFields : List (List UInt8) :=
  [lit "Host: docker", lit "User-Agent: Chaos_Forger/1.0", lit "Accept: application/json",
    lit "Connection: close", lit "Content-Length: 0"]

theorem splitOn_cons_line {l : List UInt8} {x : UInt8} (h : ∀ c ∈ l, c ≠ x) (r : List UInt8) :
    (l ++ x :: r).splitOn x = l :: r.splitOn x := by
  rw [List.splitOn_eq_splitOnP, List.splitOnP_append_cons_of_forall_mem _ _ (by simp)]
  · rfl
  · simpa using h

/-- Lines that hold no LF are found again. -/
theorem splitOn_lines {ls : List (List UInt8)} (h : ∀ l ∈ ls, ∀ c ∈ l, c ≠ 10) :
    (ls.flatMap fun l => l ++ [13, 10]).splitOn 10 = ls.map (· ++ [13]) ++ [[]] := by
  induction ls with
  | nil => rfl
  | cons l ls ih =>
      have hline : ∀ c ∈ l ++ [13], c ≠ 10 := by
        simpa [or_imp, forall_and] using h l (by simp)
      rw [List.flatMap_cons, show l ++ [13, 10] = (l ++ [13]) ++ 10 :: [] by simp,
        List.append_assoc, List.cons_append, List.nil_append, splitOn_cons_line hline,
        ih fun m hm => h m (by simp [hm])]
      rfl

/-- The lines of a call. -/
theorem wire_eq (call : StrikeCall) :
    wire call =
      ((lit "POST " ++ target call ++ lit " HTTP/1.1") :: callFields ++ [[]]).flatMap
        fun l => l ++ [13, 10] := by
  have hfront : lit "POST" ++ lit " " = lit "POST " := by decide
  have htail : lit " HTTP/1.1\r\n" ++ (lit "Host: docker\r\n" ++
      (lit "User-Agent: Chaos_Forger/1.0\r\n" ++ (lit "Accept: application/json\r\n" ++
      (lit "Connection: close\r\n" ++ (lit "Content-Length: " ++ (decimal 0 ++ (lit "\r\n" ++
      lit "\r\n"))))))) =
        lit " HTTP/1.1" ++ ([13, 10] ++ (callFields ++ [[]]).flatMap fun l => l ++ [13, 10]) := by
    decide +kernel
  simp only [wire, buildHttpRequest, List.length_nil, List.append_nil, hfront, List.append_assoc,
    htail, List.cons_append, List.flatMap_cons]

/-- **The bytes of a call are one request for its target.** -/
theorem oneRequest_wire {call : StrikeCall} (h : WellFormed call) :
    OneRequest (wire call) (lit "POST") (target call) callFields := by
  have hclean := clean_target h
  refine ⟨⟨lit "POST " ++ target call ++ lit " HTTP/1.1", ?_, ?_⟩, by decide +kernel⟩
  · rw [wire_eq]
    apply splitOn_lines
    have hfields : ∀ l ∈ callFields ++ [[]], ∀ c ∈ l, c ≠ (10 : UInt8) := by decide +kernel
    have hfront : ∀ c ∈ lit "POST ", c ≠ (10 : UInt8) := by decide +kernel
    have hback : ∀ c ∈ lit " HTTP/1.1", c ≠ (10 : UInt8) := by decide +kernel
    intro l hl
    rcases List.mem_cons.mp hl with rfl | hl
    · intro c hc
      simp only [List.mem_append] at hc
      rcases hc with (hc | hc) | hc
      · exact hfront c hc
      · exact (hclean c hc).2.1
      · exact hback c hc
    · exact hfields l hl
  · have hpost : lit "POST " = lit "POST" ++ [32] := by decide
    have hversion : lit " HTTP/1.1" = 32 :: lit "HTTP/1.1" := by decide
    rw [hpost, hversion, List.append_assoc, List.append_assoc, List.singleton_append,
      splitOn_cons_line (by decide +kernel), splitOn_cons_line fun c hc => (hclean c hc).2.2,
      show (lit "HTTP/1.1").splitOn 32 = [lit "HTTP/1.1"] by decide +kernel]

/-! ## Different calls -/

theorem decimalInt_inj {m n : Int} (hm : 1 ≤ m) (hn : 1 ≤ n) (h : decimalInt m = decimalInt n) :
    m = n := by
  obtain ⟨m, rfl⟩ := Int.eq_ofNat_of_zero_le (Int.le_trans (by decide) hm)
  obtain ⟨n, rfl⟩ := Int.eq_ofNat_of_zero_le (Int.le_trans (by decide) hn)
  have hval := congrArg (digitsValue 10) (show decimal m = decimal n from h)
  rw [digitsValue_decimal, digitsValue_decimal] at hval
  rw [hval]

theorem stop_target_ne_kill {id id' : List UInt8} (hlen : id.length = id'.length) (n : Int) :
    target (.stopContainer id n) ≠ target (.killContainer id') := by
  have hstop : lit "/stop?t=" = 47 :: 115 :: lit "top?t=" := by decide
  have hkill : lit "/kill?signal=SIGKILL" = 47 :: 107 :: lit "ill?signal=SIGKILL" := by decide
  intro heq
  simp only [target, List.append_assoc] at heq
  obtain ⟨-, hrest⟩ := List.append_inj (List.append_cancel_left heq) hlen
  simp [hstop, hkill] at hrest

/-- The target says which call it is. -/
theorem target_injective {call call' : StrikeCall} (h : WellFormed call) (h' : WellFormed call')
    (heq : target call = target call') : call = call' := by
  cases call with
  | stopContainer id n =>
      cases call' with
      | stopContainer id' n' =>
          obtain ⟨⟨hlen, -⟩, hn, -⟩ := h
          obtain ⟨⟨hlen', -⟩, hn', -⟩ := h'
          simp only [target, List.append_assoc] at heq
          obtain ⟨rfl, hrest⟩ := List.append_inj (List.append_cancel_left heq) (hlen.trans hlen'.symm)
          rw [decimalInt_inj hn hn' (List.append_cancel_left hrest)]
      | killContainer id' => exact absurd heq (stop_target_ne_kill (h.1.1.trans h'.1.symm) n)
  | killContainer id =>
      cases call' with
      | stopContainer id' n' =>
          exact absurd heq.symm (stop_target_ne_kill (h'.1.1.trans h.1.symm) n')
      | killContainer id' =>
          obtain ⟨hlen, -⟩ := h
          obtain ⟨hlen', -⟩ := h'
          simp only [target, List.append_assoc] at heq
          rw [(List.append_inj (List.append_cancel_left heq) (hlen.trans hlen'.symm)).1]

/-- **Different calls have different bytes.** -/
theorem wire_injective {call call' : StrikeCall} (h : WellFormed call) (h' : WellFormed call')
    (heq : wire call = wire call') : call = call' := by
  apply target_injective h h'
  obtain ⟨⟨line, hlines, hwords⟩, -⟩ := oneRequest_wire h
  obtain ⟨⟨line', hlines', hwords'⟩, -⟩ := oneRequest_wire h'
  rw [heq, hlines'] at hlines
  simp only [List.cons_append, List.map_cons, List.cons.injEq] at hlines
  rw [List.append_cancel_right hlines.1, hwords] at hwords'
  simp only [List.cons.injEq] at hwords'
  exact hwords'.2.1

end DockerClient

end ChaosForger
