import Csci4061.Lib.Decoder
import Csci4061.Lib.Lines
import Csci4061.WebServer.Connections
import Csci4061.WebServer.Provenance
import Csci4061.WebServer.WorkerBuffers

/-!
# What a client receives

`return_result` and `return_error` print a header and then write the body, and they may fail anywhere
between, with the bytes before that on their way already. A client reads lines up to an empty one, takes
the length from the field `Content-Length`, and then as many bytes. It must neither take a part of a
response for the whole nor find anything else in it than what was read from the disk.

The length is printed from an `int`. A file whose size is negative as an `int` cannot be read from the
disk, so no negative length is printed.
-/

namespace Csci4061.WebServer

open Csci4061.Lib

/-- The header which `return_result` or `return_error` prints. -/
def responseHeader : Response → CString
  | .result contentType numbytes _ => bytes "HTTP/1.0 200 OK\nContent-Type: " ++ contentType ++
      bytes "\nContent-Length: " ++ decimal numbytes ++ bytes "\nConnection: Close\n\n"
  | .error text => bytes "HTTP/1.0 404 Not Found\nContent-Length: " ++ decimal (toInt text.length) ++
      bytes "\nConnection: Close\n\n"

/-- The bytes which they write behind it. -/
def responseBody : Response → List UInt8
  | .result _ _ body => body
  | .error text => text

/-- A whole response. -/
def responseBytes (response : Response) : List UInt8 := responseHeader response ++ responseBody response

/-- What arrives at the connection, if `n` bytes do of the part in which the function fails, or of the
body. -/
def sentBytes (outcome : RespondOutcome) (n : ℕ) (response : Response) : List UInt8 :=
  if !outcome.fdopen then []
  else if !outcome.fprintf || !outcome.fflush then (responseHeader response).take n
  else if !outcome.write then responseHeader response
  else responseHeader response ++ (responseBody response).take n

/-- What a client makes of a response. -/
structure Reply where
  status : CString
  contentType : Option CString
  body : List UInt8
  deriving DecidableEq

/-- The lines of a header which a client accepts. -/
def maxHeaderLines : ℕ := 16

/-- A client which reads a response. -/
def readResponse : Decoder UInt8 Reply :=
  (block [newline] maxHeaderLines).andThen fun lines =>
    match lines with
    | [] => Decoder.fail
    | status :: fields =>
      match (fieldValue (bytes "Content-Length") fields).bind readNat with
      | none => Decoder.fail
      | some n => (exactly n).andThen fun body =>
        Decoder.result ⟨status, fieldValue (bytes "Content-Type") fields, body⟩

/-- The reply for what was found on the disk. After a short read there are zeros behind the bytes of the
file. -/
def replyOf (request : CString) : DiskOutcome → Reply
  | .statFails =>
    ⟨bytes "HTTP/1.0 404 Not Found", none, bytes "Couldn't retrieve file size, file not found"⟩
  | .readFails _ => ⟨bytes "HTTP/1.0 404 Not Found", none, bytes "Error reading from disk"⟩
  | .reads size data =>
    ⟨bytes "HTTP/1.0 200 OK", some (getContentType request), (fileBuffer size data).take
      (readCount size)⟩

/-- The lines of the header. -/
def headerLines : Response → List CString
  | .result contentType numbytes _ =>
    [bytes "HTTP/1.0 200 OK", fieldLine (bytes "Content-Type") contentType,
      fieldLine (bytes "Content-Length") (decimal numbytes), fieldLine (bytes "Connection")
        (bytes "Close")]
  | .error text => [bytes "HTTP/1.0 404 Not Found",
      fieldLine (bytes "Content-Length") (decimal (toInt text.length)), fieldLine (bytes "Connection")
        (bytes "Close")]

/-- The header consists of its lines and an empty one. -/
theorem responseHeader_eq (response : Response) :
    responseHeader response = (headerLines response).flatMap (· ++ [newline]) ++ [newline] := by
  have hlast : bytes "\nConnection: Close\n\n" =
      newline :: fieldLine (bytes "Connection") (bytes "Close") ++ [newline] ++ [newline] := by decide
  have hlength : bytes "\nContent-Length: " = newline :: (bytes "Content-Length" ++ bytes ": ") := by
    decide
  cases response with
  | result contentType numbytes body =>
    have hfirst : bytes "HTTP/1.0 200 OK\nContent-Type: " =
        bytes "HTTP/1.0 200 OK" ++ newline :: (bytes "Content-Type" ++ bytes ": ") := by decide
    rw [responseHeader, hlast, hlength, hfirst]
    simp [headerLines, fieldLine]
  | error text =>
    have hfirst : bytes "HTTP/1.0 404 Not Found\nContent-Length: " =
        bytes "HTTP/1.0 404 Not Found" ++ newline :: (bytes "Content-Length" ++ bytes ": ") := by decide
    rw [responseHeader, hlast, hfirst]
    simp [headerLines, fieldLine]

/-- A client which reads a response does not take back what it read. -/
theorem stable_readResponse : readResponse.Stable := by
  refine (stable_block [newline] maxHeaderLines).andThen fun lines => ?_
  split
  · exact Decoder.stable_fail
  · split
    · exact Decoder.stable_fail
    · exact (stable_exactly _).andThen fun body => Decoder.stable_result _

/-- A field line is not empty, and has no newline if the name and the value have none. -/
theorem fieldLine_oneLine {name value : CString} (hname : newline ∉ name) (hvalue : newline ∉ value) :
    fieldLine name value ≠ [] ∧ newline ∉ fieldLine name value := by
  have hcolon : bytes ": " = [0x3A, 0x20] := by decide
  rw [fieldLine, hcolon]
  refine ⟨by simp, ?_⟩
  simp only [List.mem_append, not_or]
  exact ⟨⟨hname, by decide⟩, hvalue⟩

/-- A number is printed on one line. -/
theorem newline_not_mem_decimal (n : ℤ) : newline ∉ decimal n := fun h =>
  absurd (mem_decimal h) (by decide)

/-- Behind a header on its lines as many bytes are read as its length field says. -/
theorem readResponse_lines {status : CString} {fields : List CString}
    (hlines : ∀ line ∈ status :: fields, line ≠ [] ∧ newline ∉ line)
    (hshort : (status :: fields).length < maxHeaderLines) (body : List UInt8) :
    readResponse ((status :: fields).flatMap (· ++ [newline]) ++ [newline] ++ body) =
      ((fieldValue (bytes "Content-Length") fields).bind readNat).bind fun n =>
        (exactly n body).map fun (taken, rest) =>
        (⟨status, fieldValue (bytes "Content-Type") fields, taken⟩, rest) := by
  rw [List.append_assoc, List.singleton_append, readResponse, Decoder.andThen,
    block_append hlines hshort body, Option.bind_some]
  simp only
  cases (fieldValue (bytes "Content-Length") fields).bind readNat with
  | none => rfl
  | some n =>
    simp only [Decoder.andThen, Decoder.result, Option.bind_some]
    cases exactly n body <;> rfl

/-- A response with a file is read as its length says. -/
theorem readResponse_result {contentType : CString} (htype : newline ∉ contentType) (numbytes : ℤ)
    (body : List UInt8) : readResponse (responseBytes (.result contentType numbytes body)) =
      (readNat (decimal numbytes)).bind fun n => (exactly n body).map fun (taken, rest) =>
        (⟨bytes "HTTP/1.0 200 OK", some contentType, taken⟩, rest) := by
  have hlines : ∀ line ∈ headerLines (.result contentType numbytes body), line ≠ [] ∧
      newline ∉ line := by
    simp only [headerLines, List.forall_mem_cons, List.not_mem_nil, false_implies, implies_true,
      and_true]
    exact ⟨by decide, fieldLine_oneLine (by decide) htype,
      fieldLine_oneLine (by decide) (newline_not_mem_decimal numbytes), by decide⟩
  rw [responseBytes, responseHeader_eq]
  refine (readResponse_lines hlines (by simp [maxHeaderLines]) body).trans ?_
  rw [fieldValue_of_ne (by decide) (by decide) (by decide), fieldValue_self, fieldValue_self,
    Option.bind_some]

/-- A response about an error is read as its text. -/
theorem readResponse_error {text : CString} (htext : text.length < 2 ^ 31) :
    readResponse (responseBytes (.error text)) =
      some (⟨bytes "HTTP/1.0 404 Not Found", none, text⟩, []) := by
  have hlines : ∀ line ∈ headerLines (.error text), line ≠ [] ∧ newline ∉ line := by
    simp only [headerLines, List.forall_mem_cons, List.not_mem_nil, false_implies, implies_true,
      and_true]
    exact ⟨by decide, fieldLine_oneLine (by decide) (newline_not_mem_decimal _), by decide⟩
  have htype : fieldValue (bytes "Content-Type")
      [fieldLine (bytes "Content-Length") (decimal (toInt text.length)),
      fieldLine (bytes "Connection") (bytes "Close")] = none := by
    rw [fieldValue_of_ne (by decide) (by decide) (by decide), fieldValue_of_ne (by decide) (by decide)
      (by decide)]
    rfl
  have htaken := exactly_append text []
  rw [List.append_nil] at htaken
  rw [responseBytes, responseHeader_eq]
  refine (readResponse_lines hlines (by simp [maxHeaderLines]) text).trans ?_
  rw [fieldValue_self, htype, Option.bind_some, (toSizeT_toInt htext).1, readNat_decimal,
    Option.bind_some, htaken]
  rfl

/-- As many bytes as `read` is asked for are in the buffer, and their number is the one which is
announced. -/
theorem take_fileBuffer {size : ℕ} (data : List UInt8) (h : readCount size < 2 ^ 63) :
    ((fileBuffer size data).take (readCount size)).length = readCount size ∧
    (readCount size : ℤ) = toInt size := by
  obtain ⟨hnonneg, hle⟩ := readCount_le h
  refine ⟨?_, toSizeT_of_lt hnonneg (by have hlt := toInt_lt size; omega)⟩
  rw [List.length_take, fileBuffer, List.length_append, List.length_replicate]
  omega

/-- The whole response for what was found on the disk is read as that. -/
theorem readResponse_missResponse (request : CString) {outcome : DiskOutcome}
    (hpossible : outcome.Possible) :
    readResponse (responseBytes (missResponse request outcome)) =
      some (replyOf request outcome, []) := by
  cases outcome with
  | statFails => exact readResponse_error (by decide)
  | readFails size => exact readResponse_error (by decide)
  | reads size data =>
    have htype : newline ∉ getContentType request := by
      have hnames : ∀ name ∈ contentTypes, newline ∉ name := by decide
      exact hnames _ (getContentType_mem request)
    obtain ⟨hlength, hint⟩ := take_fileBuffer data hpossible.2.1
    have htaken := exactly_append ((fileBuffer size data).take (readCount size)) []
    rw [List.append_nil, hlength] at htaken
    rw [missResponse, returnResult, readResponse_result htype, ← hint, readNat_decimal, Option.bind_some,
      toSizeT_natCast (by have hread := hpossible.2.1; omega), htaken]
    rfl

/-- In each outcome a first part of the response arrives. -/
theorem sentBytes_begins (outcome : RespondOutcome) (n : ℕ) (response : Response) :
    sentBytes outcome n response <+: responseBytes response := by
  have hheader : responseHeader response <+: responseBytes response := List.prefix_append _ _
  unfold sentBytes
  split
  · exact List.nil_prefix
  · split
    · exact (List.take_prefix n _).trans hheader
    · split
      · exact hheader
      · exact (List.prefix_append_right_inj _).mpr (List.take_prefix n _)

/-- Whatever the files do meanwhile and however far a response gets, a client reads nothing at all of a
part of it; and of the whole it reads the content type of its path and the bytes of one access to this
path, or the text about the error. -/
theorem responses_received {ι : Type*} [DecidableEq ι] {cacheSize : ℕ} (hpos : 0 < cacheSize)
    {s : Observed ι} (hs : (observedSystem ι cacheSize).Reachable s) :
    ∀ p ∈ s.state.sent, ∃ outcome : DiskOutcome,
      ⟨p.1.request, outcome⟩ ∈ s.accesses ∧ ∀ (calls : RespondOutcome) (n : ℕ) (received : List UInt8),
        received <+: sentBytes calls n p.2 → readResponse received =
          if received = responseBytes p.2 then some (replyOf p.1.request outcome, []) else none := by
  have htraced : Traced cacheSize s :=
    hs.invariant (fun _ hinit => traced_init hinit) fun s₁ label s₂ h hstep =>
      Traced.step hpos h (show observedNext s₁ label = some s₂ from hstep)
  intro p hp
  obtain ⟨outcome, hmem, hresponse⟩ := htraced.sent p hp
  refine ⟨outcome, hmem, fun calls n received hreceived => ?_⟩
  have hwhole := readResponse_missResponse p.1.request (access_possible hs _ hmem)
  rw [← hresponse] at hwhole
  exact stable_readResponse.cut (hreceived.trans (sentBytes_begins calls n p.2)) hwhole

/-- A file of two bytes is requested. Its response is read as a whole, and without its last byte not at
all. -/
theorem responses_received_twoBytes : ∃ s : Observed (Fin 2), (observedSystem (Fin 2) 1).Reachable s ∧
    ∃ response, s.state.sent = [(⟨5, bytes "/a.html"⟩, response)] ∧
      readResponse (responseBytes response) = some
        (⟨bytes "HTTP/1.0 200 OK", some (bytes "text/html"), [97, 98]⟩, []) ∧
      readResponse (sentBytes ⟨true, true, true, true⟩ 1 response) = none := by
  let start : Observed (Fin 2) := ⟨⟨initCache 1 [⟨0, [], [], 0⟩], fun _ => .idle, []⟩, []⟩
  have hstart : (observedSystem (Fin 2) 1).Reachable start :=
    .of_init ⟨⟨fun _ => rfl, rfl, _, rfl, rfl⟩, rfl⟩
  have hmissed := hstart.snoc
      (show observedNext start (.lookup 0 ⟨5, bytes "/a.html"⟩) = some _ from rfl)
  have hloaded := hmissed.snoc (show observedNext _ (.load 0 (.reads 2 [97, 98])) = some _ from rfl)
  have hinserted := hloaded.snoc (show observedNext _ (.insert 0) = some _ from rfl)
  have hanswered := hinserted.snoc (show observedNext _ (.answer 0) = some _ from rfl)
  obtain ⟨outcome, hmem, hreceived⟩ := responses_received (by decide) hanswered _
      (List.mem_singleton_self _)
  obtain rfl : outcome = .reads 2 [97, 98] := by simpa [accessOf, start] using hmem
  refine ⟨_, hanswered, _, rfl, ?_, ?_⟩
  · exact (hreceived ⟨true, true, true, true⟩ 2 _ (by decide +kernel)).trans (by decide +kernel)
  · exact (hreceived ⟨true, true, true, true⟩ 1 _ List.prefix_rfl).trans (by decide +kernel)

end Csci4061.WebServer
