import ChaosForger.Http.Live

/-!
# ChaosForger.Http.Connection

A request over a UNIX socket, from the bytes of the request to the descriptor
that is closed behind the response.

Each connection belongs to one request: `overSocket` makes the transport, runs
the request on it and destroys it.  `overSocket_spec` says what that leaves in
the log of the process, whatever the kernel answers.
-/

namespace ChaosForger

open Libc

namespace UnixSocketTransport

/-- The transport interface over a UNIX socket. -/
def impl (k : Kernel) (fuel : Nat) : TransportImpl UnixSocketTransport where
  describe := describe
  connect := connect k
  sendAll data := sendAll k data fuel
  readSome := readSome k HttpClient.bufSize fuel
  close := close

end UnixSocketTransport

namespace HttpClient

open HttpResponseParser UnixSocketTransport

/-- The life of one `HttpClient`: a transport of its own, one request, and the
destructor, which closes. -/
def overSocket (k : Kernel) (fuel : Nat) (socketPath : List UInt8) (timeoutSec : Int)
    (method pathWithQuery body : List UInt8) (log : List Syscall) :
    Option (Except (List UInt8) HttpResponse × List Syscall) :=
  (requestOn (impl k fuel) method pathWithQuery body fuel { socketPath, timeoutSec, log }).map
    fun (r, t) => (r, t.close.log)

section Connection

variable {k : Kernel} {fuel n : Nat} {wire : List UInt8} {t t' : UnixSocketTransport}
  {r : Except (List UInt8) HttpResponse}

/-! ## The descriptor -/

theorem tidy_stateAt (h : Tidy t) (hfd : t.fd ≠ -1) (hat : (impl k fuel).stateAt t n = some t') :
    Tidy t' ∧ t'.fd = t.fd := by
  induction n generalizing t' with
  | zero =>
      obtain rfl := Option.some.inj hat
      exact ⟨h, rfl⟩
  | succ n ih =>
      rw [TransportImpl.stateAt, Option.bind_eq_some_iff] at hat
      obtain ⟨t₁, hat, hmap⟩ := hat
      obtain ⟨⟨read, t₂⟩, hread, rfl⟩ := Option.map_eq_some_iff.mp hmap
      obtain ⟨htidy, hsame⟩ := ih hat
      obtain ⟨htidy', hsame'⟩ := htidy.readSome (hsame.trans_ne hfd) hread
      exact ⟨htidy', hsame'.trans hsame⟩

/-- Whatever a request runs into, it leaves no descriptor behind. -/
theorem Course.tidy (h : Course (impl k fuel) wire t r t') (ht : Tidy t) (hfd : t.fd = -1) :
    Tidy t' ∧ t'.fd = -1 := by
  cases h with
  | refused hc =>
      obtain ⟨htidy, hiff⟩ := ht.connect hfd hc
      exact ⟨htidy, hiff.mpr (by simp)⟩
  | unsent hc hs =>
      obtain ⟨htidy, hiff⟩ := ht.connect hfd hc
      have hopen : _ ≠ -1 := fun hno => hiff.mp hno rfl
      exact (htidy.sendAll hopen hs).1.close
  | read hc hs hat =>
      obtain ⟨htidy, hiff⟩ := ht.connect hfd hc
      have hopen : _ ≠ -1 := fun hno => hiff.mp hno rfl
      obtain ⟨htidy', hsame⟩ := htidy.sendAll hopen hs
      exact (tidy_stateAt htidy' (hsame.trans_ne hopen) hat).1.close

/-! ## The bytes -/

theorem acceptedBytes_append (log calls : List Syscall) :
    acceptedBytes (log ++ calls) = acceptedBytes log ++ acceptedBytes calls := List.flatMap_append

theorem receivedBlocks_append (log calls : List Syscall) :
    receivedBlocks (log ++ calls) = receivedBlocks log ++ receivedBlocks calls :=
  List.filterMap_append

theorem connections_of_not_opens {log : List Syscall} (h : ∀ c ∈ log, c.opens = false) :
    connections log = [] := by
  induction log with
  | nil => rfl
  | cons c log ih =>
      rw [connections, if_neg (by simp [h c]), ih fun d hd => h d (by simp [hd])]

theorem connections_open {fd : Nat} {log : List Syscall} (h : ∀ c ∈ log, c.opens = false) :
    connections (.socket (.ok fd) :: log) = [acceptedBytes log] := by
  have hopens : (Syscall.socket (.ok fd)).opens = true := rfl
  rw [connections, if_pos hopens, connections_of_not_opens h, List.takeWhile_eq_self_iff.mpr]
  simpa using h

/-- A log that begins a connection of its own, or none. -/
theorem connections_append {log calls : List Syscall}
    (h : calls.head?.all Syscall.opens = true ∨ ∀ c ∈ calls, c.accepted = []) :
    connections (log ++ calls) = connections log ++ connections calls := by
  have hfront : acceptedBytes (calls.takeWhile fun c => !c.opens) = [] := by
    obtain h | h := h
    · cases calls with
      | nil => rfl
      | cons c calls => rw [List.takeWhile_cons_of_neg (by simpa using h)]; rfl
    · rw [acceptedBytes, List.flatMap_eq_nil_iff]
      exact fun c hc => h c (List.takeWhile_subset _ hc)
  induction log with
  | nil => rfl
  | cons c log ih =>
      rw [List.cons_append, connections, connections, ih]
      split
      · rw [List.cons_append, List.takeWhile_append]
        refine congrArg (· :: _) ?_
        split
        · next hall =>
            rw [acceptedBytes_append, hfront, List.append_nil,
              (List.takeWhile_prefix _).eq_of_length hall]
        · rfl
      · rfl

/-- The calls open no socket, carry these bytes out and these blocks in. -/
structure Carries (calls : List Syscall) (out : List UInt8) (inn : List (List UInt8)) :
    Prop where
  accepted : acceptedBytes calls = out
  received : receivedBlocks calls = inn
  opens : ∀ c ∈ calls, c.opens = false

theorem Carries.append {calls calls' : List Syscall} {out out' : List UInt8}
    {inn inn' : List (List UInt8)} (h : Carries calls out inn) (h' : Carries calls' out' inn') :
    Carries (calls ++ calls') (out ++ out') (inn ++ inn') where
  accepted := by rw [acceptedBytes_append, h.accepted, h'.accepted]
  received := by rw [receivedBlocks_append, h.received, h'.received]
  opens c hc := (List.mem_append.mp hc).elim (h.opens c) (h'.opens c)

theorem carries_close (t : UnixSocketTransport) :
    ∃ calls, t.close.log = t.log ++ calls ∧ Carries calls [] [] := by
  unfold UnixSocketTransport.close
  split
  · exact ⟨[.close t.fd], rfl, rfl, rfl, by simp [Syscall.opens]⟩
  · exact ⟨[], by simp, rfl, rfl, by simp⟩

/-- The calls of a connect: none, a socket that could not be made, or a socket
and what is done with it. -/
theorem carries_connect {r : Except (List UInt8) Unit} (h : t.connect k = (r, t')) :
    (r ≠ .ok () ∧ ∃ calls, t'.log = t.log ++ calls ∧ Carries calls [] []) ∨
      ∃ fd calls, t'.log = t.log ++ .socket (.ok fd) :: calls ∧ Carries calls [] [] := by
  unfold UnixSocketTransport.connect at h
  split at h
  · obtain ⟨rfl, rfl⟩ := Prod.mk.inj h
    exact .inl ⟨by simp, [], by simp, rfl, rfl, by simp⟩
  · split at h
    · obtain ⟨rfl, rfl⟩ := Prod.mk.inj h
      exact .inl ⟨by simp, [], by simp, rfl, rfl, by simp⟩
    · split at h
      · next errno _ =>
          obtain ⟨rfl, rfl⟩ := Prod.mk.inj h
          exact .inl ⟨by simp, [.socket (.error errno)], rfl, rfl, rfl, by simp [Syscall.opens]⟩
      · next fd _ =>
          have hsocket : (t.withSocket fd).log = t.log ++ .socket (.ok fd) ::
              [.setsockopt fd .receiveTimeout t.timeoutSec, .setsockopt fd .sendTimeout t.timeoutSec] := by
            simp [withSocket, emit]
          dsimp only at h
          right
          split at h
          · obtain ⟨-, rfl⟩ := Prod.mk.inj h
            obtain ⟨calls, hlog, hcarries⟩ := carries_close ((t.withSocket fd).emit _)
            rw [emit_log, hsocket, List.append_assoc, List.append_assoc, List.cons_append] at hlog
            refine ⟨fd, _, hlog, ?_⟩
            have hset : Carries [.setsockopt fd .receiveTimeout t.timeoutSec,
                .setsockopt fd .sendTimeout t.timeoutSec] [] [] := ⟨rfl, rfl, by simp [Syscall.opens]⟩
            have hconnect (result : Except Errno Unit) : Carries [.connect (t.withSocket fd).fd
                (cstr (t.withSocket fd).socketPath) result] [] [] :=
              ⟨rfl, rfl, by simp [Syscall.opens]⟩
            exact hset.append ((hconnect _).append hcarries)
          · obtain ⟨-, rfl⟩ := Prod.mk.inj h
            rw [emit_log, hsocket, List.append_assoc, List.cons_append]
            exact ⟨fd, _, rfl, rfl, rfl, by simp [Syscall.opens]⟩

theorem carries_sendAll {data : List UInt8} {r : Except (List UInt8) Unit}
    (h : t.sendAll k data fuel = some (r, t')) :
    ∃ calls out rest, t'.log = t.log ++ calls ∧ Carries calls out [] ∧ out ++ rest = data ∧
      (rest = [] ↔ r = .ok ()) := by
  obtain ⟨calls, stop, hcalls, rfl, rfl⟩ := sendAll_spec h
  obtain ⟨rest, haccepted, hrest⟩ := hcalls.accepted
  refine ⟨calls, _, rest, rfl, ⟨rfl, ?_, fun c hc => ?_⟩, haccepted, hrest.trans ?_⟩
  · rw [receivedBlocks, List.filterMap_eq_nil_iff]
    intro c hc
    obtain ⟨rest, result, rfl⟩ := hcalls.mem c hc
    rfl
  · obtain ⟨rest, result, rfl⟩ := hcalls.mem c hc
    rfl
  · cases stop <;> simp [sendResult]

/-- The block a read returns: empty at the end of the stream. -/
def readBlock : Read → Option (List UInt8)
  | .data bytes => some bytes
  | .eof => some []
  | .failed _ => none

/-- The blocks of the first `n` reads. -/
def readBlocks (s : Transport) (n : Nat) : List (List UInt8) :=
  (List.range n).filterMap fun i => readBlock (s.readSome i)

theorem readBlocks_succ (s : Transport) (n : Nat) :
    readBlocks s (n + 1) = readBlocks s n ++ (readBlock (s.readSome n)).toList := by
  rw [readBlocks, List.range_succ, List.filterMap_append]
  cases h : readBlock (s.readSome n) <;> simp [readBlocks, h]

theorem carries_readSome {r : Read} (h : t.readSome k bufSize fuel = some (r, t')) :
    (∃ calls, t'.log = t.log ++ calls ∧ Carries calls [] (readBlock r).toList) ∧
      ∀ bytes, r = .data bytes → bytes ≠ [] ∧ bytes.length ≤ bufSize := by
  obtain ⟨m, result, -, rfl, rfl, hle⟩ := readSome_spec h
  refine ⟨⟨_, rfl, ?_, ?_, ?_⟩, fun bytes hbytes => ?_⟩
  · simp [receiving, acceptedBytes, Syscall.accepted]
  · have hnone : receivedBlocks (List.replicate m (.recv t.fd (.error .eintr))) = [] := by
      simp [receivedBlocks, Syscall.received]
    rw [receiving, receivedBlocks_append, hnone, List.nil_append]
    rcases result with (_ | _ | _ | _) | (_ | _) <;> simp [readResult, readBlock, receivedBlocks,
      Syscall.received]
  · simp [receiving, or_imp, forall_and, Syscall.opens]
  · rcases result with (_ | _ | _ | _) | (_ | ⟨b, bs⟩) <;> simp only [readResult, reduceCtorEq] at hbytes
    obtain rfl := Read.data.inj hbytes
    exact ⟨by simp, hle _ rfl⟩

/-- The reads bring their blocks, and nothing goes out. -/
theorem carries_stateAt {s : Transport}
    (hs : ∀ i t₁ r, (impl k fuel).stateAt t i = some t₁ → (impl k fuel).readSome t₁ = some r →
      s.readSome i = r.1)
    (hat : (impl k fuel).stateAt t n = some t') :
    (∃ calls, t'.log = t.log ++ calls ∧ Carries calls [] (readBlocks s n)) ∧
      ∀ i < n, ∀ bytes, s.readSome i = .data bytes → bytes ≠ [] ∧ bytes.length ≤ bufSize := by
  induction n generalizing t' with
  | zero =>
      obtain rfl := Option.some.inj hat
      exact ⟨⟨[], by simp, rfl, rfl, by simp⟩, by simp⟩
  | succ n ih =>
      rw [TransportImpl.stateAt, Option.bind_eq_some_iff] at hat
      obtain ⟨t₁, hat, hmap⟩ := hat
      obtain ⟨⟨read, t₂⟩, hread, rfl⟩ := Option.map_eq_some_iff.mp hmap
      obtain ⟨⟨calls, hlog, hcarries⟩, hblocks⟩ := ih hat
      obtain ⟨⟨calls', hlog', hcarries'⟩, hblock⟩ := carries_readSome hread
      have hsame := hs n t₁ _ hat hread
      refine ⟨⟨calls ++ calls', by rw [hlog', hlog, List.append_assoc], ?_⟩, fun i hi => ?_⟩
      · rw [readBlocks_succ, hsame]
        exact hcarries.append hcarries'
      · obtain hi | rfl := Nat.lt_succ_iff_lt_or_eq.mp hi
        · exact hblocks i hi
        · rw [hsame]
          exact hblock

/-! ## The response -/

/-- What a block that was read is to the parser: an empty one is the EOF marker. -/
def arrival : List UInt8 → Option (List UInt8)
  | [] => none
  | bytes => some bytes

/-- The parser of a request, fed with these blocks. -/
def parserOn (blocks : List (List UInt8)) : HttpResponseParser :=
  blocks.foldl (fun p b => (p.feed (arrival b)).1) parser

/-- The blocks make up this response, and all of them are needed. -/
structure Answers (blocks : List (List UInt8)) (resp : HttpResponse) : Prop where
  done : (parserOn blocks).state = .done
  resp_eq : (parserOn blocks).resp = resp
  pending : ∀ front, front <+: blocks → front ≠ blocks → (parserOn front).state ≠ .done

section Reads

variable {s : Transport}

theorem parserOn_concat (blocks : List (List UInt8)) (b : List UInt8) :
    parserOn (blocks ++ [b]) = ((parserOn blocks).feed (arrival b)).1 := List.foldl_concat ..

/-- Reads that deliver are blocks for the parser. -/
theorem parserOn_readBlocks (h : Takes s n)
    (hne : ∀ i < n, ∀ bytes, s.readSome i = .data bytes → bytes ≠ []) :
    parserOn (readBlocks s n) = parserAfter s n := by
  induction n with
  | zero => rfl
  | succ n ih =>
      obtain ⟨-, bytes, hread, -⟩ := h n (Nat.lt_succ_self n)
      have hbytes := hne n (Nat.lt_succ_self n) bytes hread
      have harrival : arrival bytes = some bytes := by
        cases bytes with
        | nil => contradiction
        | cons => rfl
      have hprev := ih (h.le (Nat.le_succ n)) fun i hi => hne i (Nat.lt_succ_of_lt hi)
      rw [readBlocks_succ, hread, readBlock, Option.toList_some, parserOn_concat, hprev, harrival,
        parserAfter_succ hread]

/-- A front of the blocks is what an earlier read had delivered. -/
theorem eq_readBlocks_of_prefix {front : List (List UInt8)} (h : Takes s n)
    (hfront : front <+: readBlocks s n) : ∃ m ≤ n, front = readBlocks s m := by
  induction n with
  | zero => exact ⟨0, le_rfl, List.prefix_nil.mp hfront⟩
  | succ n ih =>
      obtain ⟨-, bytes, hread, -⟩ := h n (Nat.lt_succ_self n)
      have hsucc : readBlocks s (n + 1) = readBlocks s n ++ [bytes] := by
        rw [readBlocks_succ, hread, readBlock, Option.toList_some]
      rw [hsucc, List.prefix_concat_iff] at hfront
      obtain rfl | hfront := hfront
      · exact ⟨n + 1, le_rfl, hsucc.symm⟩
      · obtain ⟨m, hm, heq⟩ := ih (h.le (Nat.le_succ n)) hfront
        exact ⟨m, Nat.le_succ_of_le hm, heq⟩

theorem length_le_of_mem_readBlocks {len : Nat}
    (h : ∀ i < n, ∀ bytes, s.readSome i = .data bytes → bytes.length ≤ len) :
    ∀ b ∈ readBlocks s n, b.length ≤ len := by
  intro b hb
  rw [readBlocks, List.mem_filterMap] at hb
  obtain ⟨i, hi, hblock⟩ := hb
  rw [List.mem_range] at hi
  cases hread : s.readSome i with
  | data bytes =>
      rw [hread, readBlock, Option.some.injEq] at hblock
      exact hblock ▸ h i hi bytes hread
  | eof =>
      rw [hread, readBlock, Option.some.injEq] at hblock
      rw [← hblock]
      exact Nat.zero_le _
  | failed err => simp [hread, readBlock] at hblock

/-- Before the last of its blocks the response is not complete. -/
theorem pending_of_takes {front : List (List UInt8)} (h : Takes s n)
    (hne : ∀ i < n, ∀ bytes, s.readSome i = .data bytes → bytes ≠ [])
    (hfront : front <+: readBlocks s n) (hlt : front ≠ readBlocks s n) :
    (parserOn front).state ≠ .done := by
  obtain ⟨m, hm, rfl⟩ := eq_readBlocks_of_prefix h hfront
  have hmn : m < n := Nat.lt_of_le_of_ne hm fun heq => hlt (heq ▸ rfl)
  rw [parserOn_readBlocks (h.le hm) fun i hi => hne i (Nat.lt_of_lt_of_le hi hm)]
  exact (h m hmn).1

/-- **The blocks that were read are the response.** -/
theorem answers_of_reads {resp : HttpResponse} (h : HttpClient.Reads s n (some resp))
    (hne : ∀ i < n, ∀ bytes, s.readSome i = .data bytes → bytes ≠ []) :
    Answers (readBlocks s n) resp := by
  cases h with
  | done htakes hd =>
      have hparser := parserOn_readBlocks htakes hne
      exact ⟨by rwa [hparser], by rw [hparser], fun front => pending_of_takes htakes hne⟩
  | @eof m htakes hd hread hok =>
      have hne' : ∀ i < m, ∀ bytes, s.readSome i = .data bytes → bytes ≠ [] :=
        fun i hi => hne i (Nat.lt_succ_of_lt hi)
      have hblocks : readBlocks s (m + 1) = readBlocks s m ++ [[]] := by
        rw [readBlocks_succ, hread, readBlock, Option.toList_some]
      have hparser : parserOn (readBlocks s (m + 1)) = ((parserAfter s m).feed none).1 := by
        rw [hblocks, parserOn_concat, parserOn_readBlocks htakes hne', arrival]
      refine ⟨by rw [hparser]; exact feed_none_state hok, by rw [hparser], ?_⟩
      intro front hfront hlt
      rw [hblocks, List.prefix_concat_iff] at hfront
      obtain rfl | hfront := hfront
      · exact absurd hblocks.symm hlt
      · by_cases heq : front = readBlocks s m
        · rwa [heq, parserOn_readBlocks htakes hne']
        · exact pending_of_takes htakes hne' hfront heq

end Reads

/-- What a request carries: the front of its bytes, on a connection of its own
when there is one; all of them for a request that is answered, and the blocks
that were received are the response. -/
structure Delivery (wire : List UInt8) (r : Except (List UInt8) HttpResponse)
    (calls : List Syscall) : Prop where
  head : calls.head?.all Syscall.opens = true ∨ ∀ c ∈ calls, c.accepted = []
  sent : ∃ rest, acceptedBytes calls ++ rest = wire
  connections : connections calls = [] ∨ connections calls = [acceptedBytes calls]
  answered : ∀ resp, r = .ok resp → ChaosForger.connections calls = [wire] ∧
    (∀ b ∈ receivedBlocks calls, b.length ≤ bufSize) ∧ Answers (receivedBlocks calls) resp

/-- Calls that carry nothing may follow. -/
theorem Delivery.append {calls calls' : List Syscall} (h : Delivery wire r calls)
    (h' : Carries calls' [] []) : Delivery wire r (calls ++ calls') := by
  have hnone := List.flatMap_eq_nil_iff.mp h'.accepted
  have hconn : ChaosForger.connections (calls ++ calls') = ChaosForger.connections calls := by
    rw [connections_append (.inr hnone), connections_of_not_opens h'.opens, List.append_nil]
  have hout : acceptedBytes (calls ++ calls') = acceptedBytes calls := by
    rw [acceptedBytes_append, h'.accepted, List.append_nil]
  have hin : receivedBlocks (calls ++ calls') = receivedBlocks calls := by
    rw [receivedBlocks_append, h'.received, List.append_nil]
  refine ⟨?_, by rw [hout]; exact h.sent, by rw [hconn, hout]; exact h.connections,
    by rw [hconn, hin]; exact h.answered⟩
  cases calls with
  | nil => exact .inr hnone
  | cons c calls =>
      obtain hhead | hquiet := h.head
      · exact .inl hhead
      · exact .inr fun d hd => (List.mem_append.mp hd).elim (hquiet d) (hnone d)

/-- A request that is not answered. -/
theorem delivery_error {err : List UInt8} {calls : List Syscall} {fd : Nat} {out : List UInt8}
    (rest : List UInt8) (h : ∃ inn, Carries calls out inn) (hwire : out ++ rest = wire) :
    Delivery wire (.error err) (.socket (.ok fd) :: calls) := by
  obtain ⟨inn, h⟩ := h
  have hbytes : acceptedBytes (.socket (.ok fd) :: calls) = acceptedBytes calls := rfl
  refine ⟨.inl rfl, ⟨rest, ?_⟩, .inr ?_, by simp⟩
  · rw [hbytes, h.accepted, hwire]
  · rw [connections_open h.opens, hbytes]

theorem Course.delivery (h : Course (impl k fuel) wire t r t') :
    ∃ calls, t'.log = t.log ++ calls ∧ Delivery wire r calls := by
  cases h with
  | refused hc =>
      obtain ⟨-, calls, hlog, hcarries⟩ | ⟨fd, calls, hlog, hcarries⟩ := carries_connect hc
      · have hnone := List.flatMap_eq_nil_iff.mp hcarries.accepted
        refine ⟨calls, hlog, .inr hnone, ⟨wire, by rw [hcarries.accepted]; rfl⟩, .inl ?_, by simp⟩
        exact connections_of_not_opens hcarries.opens
      · exact ⟨_, hlog, delivery_error wire ⟨_, hcarries⟩ (List.nil_append wire)⟩
  | @unsent _ _ t₁ t₂ hc hs =>
      obtain ⟨hno, -⟩ | ⟨fd, calls, hlog, hcarries⟩ := carries_connect hc
      · exact absurd rfl hno
      obtain ⟨calls₁, out, rest, hlog₁, hcarries₁, hdata, -⟩ := carries_sendAll hs
      obtain ⟨calls₂, hlog₂, hcarries₂⟩ := carries_close t₂
      refine ⟨.socket (.ok fd) :: (calls ++ calls₁ ++ calls₂), ?_, delivery_error rest
        ⟨_, (hcarries.append hcarries₁).append hcarries₂⟩ (by simpa using hdata)⟩
      refine hlog₂.trans ?_
      simp only [hlog₁, hlog, List.append_assoc, List.cons_append]
  | @read res t₁ t₂ t₃ n _ hc hs hat hreads hres =>
      obtain ⟨hno, -⟩ | ⟨fd, calls, hlog, hcarries⟩ := carries_connect hc
      · exact absurd rfl hno
      obtain ⟨calls₁, out, rest, hlog₁, hcarries₁, hdata, hrest⟩ := carries_sendAll hs
      obtain rfl := hrest.mpr rfl
      have hscript : ∀ i t₄ r, (impl k fuel).stateAt t₂ i = some t₄ →
          (impl k fuel).readSome t₄ = some r → ((impl k fuel).script wire t).readSome i = r.1 := by
        intro i t₄ r hi hr
        have hc' : (impl k fuel).connect t = (.ok (), t₁) := hc
        have hs' : (impl k fuel).sendAll wire t₁ = some (.ok (), t₂) := hs
        simp only [TransportImpl.script, hc', hs', Option.bind_some, hi, hr]
        rfl
      obtain ⟨⟨calls₂, hlog₂, hcarries₂⟩, hblocks⟩ := carries_stateAt hscript hat
      obtain ⟨calls₃, hlog₃, hcarries₃⟩ := carries_close t₃
      have hall := ((hcarries.append hcarries₁).append hcarries₂).append hcarries₃
      rw [List.nil_append, List.append_nil, List.append_nil] at hall
      refine ⟨.socket (.ok fd) :: (calls ++ calls₁ ++ calls₂ ++ calls₃), ?_, ?_⟩
      · refine hlog₃.trans ?_
        simp only [hlog₂, hlog₁, hlog, List.append_assoc, List.cons_append]
      · rw [List.append_nil] at hdata
        subst hdata
        refine ⟨.inl rfl, ⟨[], ?_⟩, .inr (connections_open hall.opens), fun resp hr => ⟨?_, ?_⟩⟩
        · rw [List.append_nil]
          exact hall.accepted
        · rw [connections_open hall.opens, hall.accepted]
        · subst hr
          obtain rfl := hres
          have hread : receivedBlocks (.socket (.ok fd) :: (calls ++ calls₁ ++ calls₂ ++ calls₃)) =
              receivedBlocks (calls ++ calls₁ ++ calls₂ ++ calls₃) := rfl
          rw [hread, hall.received, List.append_nil]
          exact ⟨length_le_of_mem_readBlocks fun i hi bytes hb => (hblocks i hi bytes hb).2,
            answers_of_reads hreads fun i hi bytes hb => (hblocks i hi bytes hb).1⟩

end Connection

section Socket

variable {k : Kernel} {fuel : Nat} {socketPath method target body : List UInt8} {timeoutSec : Int}
  {log log' : List Syscall} {r : Except (List UInt8) HttpResponse}

/-- The destructor closes. -/
theorem overSocket_disciplined (hlog : Handles.Disciplined 1 (accesses log))
    (hopen : openFds log = [])
    (h : overSocket k fuel socketPath timeoutSec method target body log = some (r, log')) :
    Handles.Disciplined 1 (accesses log') ∧ openFds log' = [] := by
  obtain ⟨⟨r', t'⟩, hreq, heq⟩ := Option.map_eq_some_iff.mp h
  obtain ⟨rfl, rfl⟩ := Prod.mk.inj heq
  have htidy := ((course_requestOn hreq).tidy ⟨hlog, hopen, le_rfl⟩ rfl).1.close
  have hnone := htidy.1.openFds
  rw [if_pos htidy.2] at hnone
  exact ⟨htidy.1.disciplined, hnone⟩

theorem overSocket_delivery
    (h : overSocket k fuel socketPath timeoutSec method target body log = some (r, log')) :
    ∃ calls, log' = log ++ calls ∧ Delivery (buildHttpRequest method target body) r calls := by
  obtain ⟨⟨r', t'⟩, hreq, heq⟩ := Option.map_eq_some_iff.mp h
  obtain ⟨rfl, rfl⟩ := Prod.mk.inj heq
  obtain ⟨calls, hcalls, hdelivery⟩ := (course_requestOn hreq).delivery
  obtain ⟨calls', hclose, hquiet⟩ := carries_close t'
  exact ⟨calls ++ calls', by rw [hclose, hcalls, List.append_assoc], hdelivery.append hquiet⟩

/-- **A request over a UNIX socket**, whatever the kernel answers: the process
holds at most this one descriptor, every use of it lies between its `socket`
and its `close`, and it is closed behind the request; the kernel has taken the
request in order on a connection of its own, all of it when the request is
answered; and the response is what the parser makes of the blocks that were
received, each of them. -/
theorem overSocket_spec (hlog : Handles.Disciplined 1 (accesses log)) (hopen : openFds log = [])
    (h : overSocket k fuel socketPath timeoutSec method target body log = some (r, log')) :
    Handles.Disciplined 1 (accesses log') ∧ openFds log' = [] ∧
      ∃ calls, log' = log ++ calls ∧ Delivery (buildHttpRequest method target body) r calls := by
  obtain ⟨hdisc, hclosed⟩ := overSocket_disciplined hlog hopen h
  exact ⟨hdisc, hclosed, overSocket_delivery h⟩

/-- A kernel that takes sixteen bytes at a time, and gives the connections one
of these responses each. -/
def replay (responses : List (List UInt8)) : Kernel where
  socket _ := .ok 3
  connect _ _ _ := .ok ()
  send _ _ data := .ok (min 16 data.length)
  recv log _ len :=
    let response := responses.getD ((connections log).length - 1) []
    let taken := receivedBytes (log.reverse.takeWhile fun c => !c.opens)
    .ok ((response.drop taken.length).take len)
  strerror _ := lit "errno"
  send_le := by simp
  recv_le := by simp

/-- A ping, sent in parts and answered. -/
theorem overSocket_spec_ping : ∃ resp log,
    overSocket (replay [lit "HTTP/1.1 204 No Content\r\n\r\n"]) 40 (lit "/s") 5 (lit "GET")
      (lit "/_ping") [] [] = some (.ok resp, log) ∧
    Handles.Disciplined 1 (accesses log) ∧ openFds log = [] ∧
      Answers (receivedBlocks log) resp := by
  have hsome : (overSocket (replay [lit "HTTP/1.1 204 No Content\r\n\r\n"]) 40 (lit "/s") 5
      (lit "GET") (lit "/_ping") [] []).any (fun result => result.1.toBool) = true := by
    decide +kernel
  obtain ⟨⟨r, log⟩, hreq, hok⟩ := (Option.any_eq_true _ _).mp hsome
  cases r with
  | error err => exact absurd hok Bool.false_ne_true
  | ok resp =>
      have hnone : Handles.Disciplined 1 (accesses []) := Handles.disciplined_nil 1
      obtain ⟨hdisc, hopen, calls, hcalls, hdelivery⟩ := overSocket_spec hnone rfl hreq
      rw [List.nil_append] at hcalls
      exact ⟨resp, log, hreq, hdisc, hopen, hcalls ▸ (hdelivery.answered resp rfl).2.2⟩

end Socket

end HttpClient

end ChaosForger
