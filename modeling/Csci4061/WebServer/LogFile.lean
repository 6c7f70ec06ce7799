import Csci4061.Lib.Decoder
import Csci4061.Lib.Lines
import Csci4061.WebServer.Connections
import Csci4061.WebServer.WorkerBuffers

/-!
# The log file

Every worker appends the line of a request to the log, with what the client asked for between brackets
and as it is. So a request may look like several fields of a line. But there is no newline in it, since
`get_request` splits its line at that too, and behind it there are three fields without brackets. A
reader which takes three fields from each end of a line therefore finds the records, whatever the
clients sent.

The thread is the number which `main` passes to it. What was in the file before is not considered.
-/

namespace Csci4061.WebServer

open Csci4061.Lib

/-- What a line says of the outcome: the size as it is printed, or the text of the error. -/
inductive Reported
  | size (n : ℤ)
  | error (text : CString)
  deriving DecidableEq

/-- What a line of the log says. -/
structure LogRecord where
  thread : ℤ
  reqNum : ℤ
  fd : ℤ
  request : CString
  result : Reported
  micros : ℕ
  hit : Bool
  deriving DecidableEq

/-- What is between the brackets for the outcome. -/
def resultText : LogResult → CString
  | .size n => decimal (toLong n)
  | .error text => text

/-- What it says. -/
def LogResult.reported : LogResult → Reported
  | .size n => .size (toLong n)
  | .error text => .error text

/-- The line as it is printed, with its newline. -/
def LogLine.text {n : ℕ} (line : LogLine (Fin n)) : CString :=
  bytes "[" ++ decimal line.thread.val ++ bytes "][" ++ decimal line.reqNum ++ bytes "][" ++
    decimal line.fd ++
    bytes "][" ++ line.request ++ bytes "][" ++ resultText line.result ++ bytes "][" ++
    decimal (toSizeT line.micros) ++ bytes "micros][" ++ (if line.hit then bytes "HIT"
      else bytes "MISS") ++ bytes "]\n"

/-- The record of a line. -/
def LogLine.record {n : ℕ} (line : LogLine (Fin n)) : LogRecord where
  thread := line.thread.val
  reqNum := line.reqNum
  fd := line.fd
  request := line.request
  result := line.result.reported
  micros := toSizeT line.micros
  hit := line.hit

/-- A line of the log is the text which a worker copies to its array. -/
theorem LogLine.text_eq_logText {n : ℕ} {line : LogLine (Fin n)} {numbers : LogNumbers}
    (hthread : (line.thread.val : ℤ) = numbers.arg.toInt) (hreqNum : line.reqNum = numbers.reqNum.toInt)
    (hfd : line.fd = numbers.fd.toInt) (hmicros : line.micros = numbers.duration.toInt) :
    line.text =
      logText numbers line.request (resultText line.result)
        (if line.hit then bytes "HIT" else bytes "MISS") := by
  have hunsigned : toSizeT numbers.duration.toInt = numbers.duration.toUInt64.toNat := by
    rw [← Int64.toNat_toBitVec, ← Int64.toInt_toBitVec, toSizeT, BitVec.toInt_eq_toNat_bmod]
    generalize numbers.duration.toBitVec = duration
    have hmod : (duration.toNat : ℤ).bmod (2 ^ 64) % 2 ^ 64 = duration.toNat % 2 ^ 64 := by
      exact_mod_cast Int.bmod_emod (x := duration.toNat) (m := 2 ^ 64)
    rw [hmod, Int.emod_eq_of_lt (Int.natCast_nonneg _) (by exact_mod_cast duration.isLt),
      Int.toNat_natCast]
  rw [LogLine.text, logText, hthread, hreqNum, hfd, hmicros, hunsigned]

/-- The line without its newline. -/
def LogLine.body {n : ℕ} (line : LogLine (Fin n)) : CString :=
  bytes "[" ++ (decimal line.thread.val ++
    (bytes "][" ++ (decimal line.reqNum ++ (bytes "][" ++ (decimal line.fd ++
    (bytes "][" ++ (line.request ++ bytes "][" ++ resultText line.result ++ bytes "][" ++
      (decimal (toSizeT line.micros) ++ bytes "micros") ++ bytes "][" ++
        (if line.hit then bytes "HIT]" else bytes "MISS]"))))))))

variable {δ ω : Type*} [DecidableEq ω]

/-- The requests which are stored, or about to be, have no newline. -/
structure Connections.OneLine (s : Connections ω) : Prop where
  storing : ∀ c ∈ s.accepted, ∀ buf, c.status = .storing buf → newline ∉ buf
  stored : ∀ request ∈ s.service.stored, newline ∉ request.request

/-- A request which `get_request` accepts has no newline. -/
theorem newline_not_mem_getRequest {stream : List UInt8} {filename : CString}
    (h : getRequest stream = some ⟨0, some filename⟩) : newline ∉ filename := by
  rw [getRequest_eq_parseRequest, Option.some_inj] at h
  obtain ⟨buf, target, -, htarget, -, -, -, rfl⟩ := parseRequest_accepted h
  have hseparates : separates requestDelims newline = true := by decide
  intro hmem
  have hword := (mem_tokens (List.mem_of_getElem? htarget)).2.1 newline (List.take_subset _ _ hmem)
  exact absurd (hseparates.symm.trans hword) (by decide)

omit [DecidableEq ω] in
/-- What a dispatcher is about to store has no newline. -/
theorem dispatchConnection_oneLine {fd : ℤ} {opens : Bool} {stream : List UInt8} {buf : CString}
    (h : (dispatchConnection fd opens stream).status = .storing buf) : newline ∉ buf := by
  rw [dispatchConnection] at h
  split at h
  · split at h
    · rename_i found ops hops
      obtain rfl := ConnectionStatus.storing.inj h
      rw [getRequestOps] at hops
      split at hops
      · split at hops
        · rename_i filename hrequest
          obtain ⟨hfound, -⟩ := Prod.mk.inj hops
          exact Option.some.inj hfound ▸ newline_not_mem_getRequest hrequest
        · exact absurd (congrArg Prod.fst hops) (by simp)
      · exact absurd (congrArg Prod.fst hops) (by simp)
    · exact absurd h (by simp)
  · exact absurd h (by simp)

/-- Every step of a dispatcher or a worker leaves one line per request. -/
theorem Connections.OneLine.step {s s' : Connections ω} {label : ConnectionsLabel δ ω} (h : s.OneLine)
    (hinv : ConnectionsInv s) (hknown : MissesKnown s.service.workers)
    (hstep : connectionsNext s label = some s') :
    s'.OneLine := by
  cases label with
  | accept fd opens stream =>
    rw [connectionsNext] at hstep
    split at hstep
    · exact Option.some.inj hstep ▸ h
    · obtain rfl := Option.some.inj hstep
      refine ⟨fun c hc buf hbuf => ?_, h.stored⟩
      rcases List.mem_append.mp hc with hold | hnew
      · exact h.storing c hold buf hbuf
      · rw [List.mem_singleton.mp hnew] at hbuf
        exact dispatchConnection_oneLine hbuf
  | store d i =>
    rw [connectionsNext] at hstep
    split at hstep
    · rename_i fd opens ops buf hi
      obtain ⟨service, hservice, rfl⟩ := Option.map_eq_some_iff.mp hstep
      have hmem := List.mem_of_getElem? hi
      refine ⟨fun c hc buf' hbuf => ?_, fun request hrequest => ?_⟩
      · rcases List.mem_or_eq_of_mem_set hc with hold | rfl
        · exact h.storing c hold buf' hbuf
        · exact absurd hbuf (by simp)
      · cases hinv.traced _ hmem with
        | storing _ _ hpos =>
          rw [(serviceNext_dispatch hpos hservice).1] at hrequest
          rcases List.mem_append.mp hrequest with hold | hnew
          · exact h.stored request hold
          · rw [List.mem_singleton.mp hnew]
            exact h.storing _ hmem buf rfl
    · exact absurd hstep (by simp)
  | work label outcome =>
    rw [connectionsNext] at hstep
    split at hstep
    · exact absurd hstep (by simp)
    · rename_i hlabel
      obtain ⟨service, hservice, rfl⟩ := Option.map_eq_some_iff.mp hstep
      obtain ⟨hstored, -⟩ := serviceNext_work hknown (Bool.eq_false_iff.mpr hlabel) hservice
      exact ⟨h.storing, fun request hrequest => h.stored request (hstored ▸ hrequest)⟩

end Csci4061.WebServer
