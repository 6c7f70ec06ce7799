import Csci4061.Lib.CMemory
import Csci4061.Lib.StringBuffer
import Csci4061.WebServer.CacheCoherence
import Csci4061.WebServer.Confinement
import Csci4061.WebServer.FileBytes

/-!
# The buffers of a worker

One iteration of `worker` fills arrays of fixed sizes and blocks whose sizes come from the request, the
web root and the file. The name of the content type, the path and the request fit exactly, if they are
as long as they can be, and a log line leaves room. But if a file cannot be read, a text about it is
copied to the block for its bytes, and nothing compares the two lengths.

The numbers in a log line are any values of their types, and uninitialised memory has any bytes.
-/

namespace Csci4061.WebServer

open Csci4061.Lib

/-- The arrays of `worker` and the entry of `addIntoCache`, which are not initialised, and the bytes in
the blocks which `malloc` returns. -/
structure WorkerMemory where
  contentType : List UInt8
  contentType_length : contentType.length = 11
  logMessage : List UInt8
  logMessage_length : logMessage.length = 2048
  entryRequest : List UInt8
  entryRequest_length : entryRequest.length = 1024
  pathGarbage : ℕ → UInt8
  fileGarbage : ℕ → UInt8
  entryGarbage : ℕ → UInt8
  hitGarbage : ℕ → UInt8

/-- What `open` and `read` report for a file of some size. -/
inductive FileRead (size : ℕ)
  /-- `open` returns `-1`, and then so does `read`. -/
  | notOpened
  /-- `read` returns `-1`. -/
  | failed
  | reads (data : List UInt8) (le_count : data.length ≤ readCount size)

/-- What an iteration finds: the content of an entry, no file, or a file of the size which `stat`
reports. -/
inductive Lookup
  | hit (content : List UInt8)
  | noFile
  | file (size : ℕ) (read : FileRead size)

/-- The numbers in a log line: the thread, the request and the descriptor, and the duration. -/
structure LogNumbers where
  arg : Int32
  reqNum : Int32
  fd : Int32
  duration : Int64

/-- What an iteration leaves: the response, the entry which is inserted and the array with the log
line. -/
structure Served where
  response : Response
  entry : Option CacheEntry
  logMessage : List UInt8

/-- A line of the log. The outcome is the size of the file or an error. -/
def logText (numbers : LogNumbers) (request outcome lookup : CString) : CString :=
  bytes "[" ++ decimal numbers.arg.toInt ++ bytes "][" ++ decimal numbers.reqNum.toInt ++ bytes "][" ++
    decimal numbers.fd.toInt ++ bytes "][" ++ request ++ bytes "][" ++ outcome ++ bytes "][" ++
    decimal numbers.duration.toUInt64.toNat ++ bytes "micros][" ++ lookup ++ bytes "]\n"

/-- `readFromDisk`: what it returns, and the buffer. -/
def readFromDisk {size : ℕ} (read : FileRead size) (buf : List UInt8) : Option (ℤ × List UInt8) :=
  match read with
  | .notOpened | .failed => (strcpy buf (bytes "Error reading from disk")).map fun buf => (-1, buf)
  | .reads data _ => (memcpy buf data).map fun buf => (0, buf)

/-- The entry which `addIntoCache` makes. -/
def makeCacheEntry (m : WorkerMemory) (request : CString) (memory : List UInt8) (memorySize : ℤ) :
    Option CacheEntry := do
  let entryRequest ← strcpy m.entryRequest request
  let content ← memset (malloc m.entryGarbage (toSizeT memorySize)) 0 (toSizeT memorySize)
  let content ← memcpy content (memory.take (toSizeT memorySize))
  some { len := memorySize, request := cString entryRequest, content, freqUsed := 0 }

/-- The path of a hit. -/
def serveHit (m : WorkerMemory) (numbers : LogNumbers) (request contentType : CString)
    (content : List UInt8) :
    Option Served := do
  let size := toSizeT (toInt content.length)
  let buf ← memset (malloc m.hitGarbage size) 0 size
  let buf ← memcpy buf (content.take size)
  let logMessage ← strcpy m.logMessage (logText numbers request (decimal (toLong size)) (bytes "HIT"))
  some ⟨returnResult contentType buf (toInt size), none, logMessage⟩

/-- The path of a miss without a file. -/
def serveNoFile (m : WorkerMemory) (numbers : LogNumbers) (request : CString) : Option Served := do
  let error := bytes "Couldn't retrieve file size, file not found"
  let logMessage ← strcpy m.logMessage (logText numbers request error (bytes "MISS"))
  some ⟨.error error, none, logMessage⟩

/-- The path of a miss with a file. -/
def serveFile (m : WorkerMemory) (numbers : LogNumbers) (request contentType : CString) (size : ℕ)
    (read : FileRead size) : Option Served := do
  let buf ← writeSlot (malloc m.fileGarbage (toSizeT (size + 1))) size 0
  let buf ← memset buf 0 size
  let (ret, buf) ← readFromDisk read buf
  if ret = -1 then
    let logMessage ← strcpy m.logMessage (logText numbers request (cString buf) (bytes "MISS"))
    some ⟨.error (cString buf), none, logMessage⟩
  else
    let entry ← makeCacheEntry m request buf (toInt size)
    let logMessage ← strcpy m.logMessage (logText numbers request (decimal (toLong size)) (bytes "MISS"))
    some ⟨returnResult contentType buf (toInt size), some entry, logMessage⟩

/-- The path of the file, in a block of its length. -/
def makeAbsolutePath (m : WorkerMemory) (workingDir request : CString) : Option (List UInt8) :=
  strcpy (malloc m.pathGarbage (workingDir.length + request.length + 1))
    (absolutePath workingDir request)

/-- An iteration of `worker` behind the removal from the queue; `none` is a write outside of an array or
a block. -/
def serveRequest (m : WorkerMemory) (workingDir : CString) (request : StringBuffer 1024)
    (numbers : LogNumbers) (lookup : Lookup) : Option Served := do
  let contentType ← strcpy m.contentType (getContentType request.string)
  match lookup with
  | .hit content => serveHit m numbers request.string (cString contentType) content
  | .noFile => do
    let _ ← makeAbsolutePath m workingDir request.string
    serveNoFile m numbers request.string
  | .file size read => do
    let _ ← makeAbsolutePath m workingDir request.string
    serveFile m numbers request.string (cString contentType) size read

/-- The size of the file which is served. -/
def Lookup.size : Lookup → ℕ
  | .hit content => content.length
  | .noFile => 0
  | .file size _ => size

/-- The file cannot be opened or not be read. -/
def FileRead.Fails {size : ℕ} : FileRead size → Prop
  | .notOpened | .failed => True
  | .reads _ _ => False

/-- A file which cannot be opened or read has at least 23 bytes. -/
def Lookup.HoldsErrorText : Lookup → Prop
  | .hit _ | .noFile => True
  | .file size read => read.Fails → 23 ≤ size

/-- The names of content types. -/
def contentTypes : List CString :=
  [bytes "text/html", bytes "image/jpeg", bytes "image/gif", bytes "text/plain"]

/-- The content type of a request is one of them. -/
theorem getContentType_mem (request : CString) : getContentType request ∈ contentTypes := by
  simp only [getContentType, contentTypes]
  split
  · simp
  · split
    · simp
    · split <;> simp

/-- The name of a content type is copied to its array, which `image/jpeg` fills. -/
theorem exists_contentType (m : WorkerMemory) (request : CString) :
    ∃ contentType, strcpy m.contentType (getContentType request) = some contentType ∧
      cString contentType = getContentType request := by
  have hnames : ∀ name ∈ contentTypes, name.length ≤ 10 ∧ 0 ∉ name := by decide
  obtain ⟨hshort, hzero⟩ := hnames _ (getContentType_mem request)
  have hcopied := strcpy_of_lt m.contentType (getContentType request) (by
    rw [m.contentType_length]
    omega)
  exact ⟨_, hcopied, (strcpy_eq_some hzero hcopied).1⟩

/-- An `int` is printed in at most eleven characters. -/
theorem length_decimal_int32_le (n : Int32) : (decimal n.toInt).length ≤ 11 := by
  have hlt := n.toInt_lt
  have hle := n.le_toInt
  exact length_decimal_le (by decide : 0 < 10) (by omega)

/-- An `unsigned long` is printed in at most 21 characters. -/
theorem length_decimal_uint64_le (n : UInt64) : (decimal n.toNat).length ≤ 21 := by
  have hlt := n.toNat_lt
  exact length_decimal_le (by decide : 0 < 20) (by omega)

/-- A line of the log fits, with its terminator. -/
theorem length_logText_lt (numbers : LogNumbers) {request outcome lookup : CString}
    (hrequest : request.length ≤ 1023) (houtcome : outcome.length ≤ 43) (hlookup : lookup.length ≤ 4) :
    (logText numbers request outcome lookup).length < 2048 := by
  have hthread := length_decimal_int32_le numbers.arg
  have hreqNum := length_decimal_int32_le numbers.reqNum
  have hfd := length_decimal_int32_le numbers.fd
  have hduration := length_decimal_uint64_le numbers.duration.toUInt64
  have hopen : (bytes "[").length = 1 := rfl
  have hbetween : (bytes "][").length = 2 := rfl
  have hmicros : (bytes "micros][").length = 8 := rfl
  have hclose : (bytes "]\n").length = 2 := rfl
  simp only [logText, List.length_append, hopen, hbetween, hmicros, hclose]
  omega

/-- The log line of an iteration is written inside its array. -/
theorem exists_logMessage (m : WorkerMemory) (numbers : LogNumbers) {request : CString}
    (outcome lookup : CString) (hrequest : request.length ≤ 1023) (houtcome : outcome.length ≤ 43)
    (hlookup : lookup.length ≤ 4) :
    ∃ logMessage, strcpy m.logMessage (logText numbers request outcome lookup) = some logMessage := by
  refine ⟨_, strcpy_of_lt _ _ ?_⟩
  rw [m.logMessage_length]
  exact length_logText_lt numbers hrequest houtcome hlookup

/-- The size of a file is printed in at most 20 characters. -/
theorem length_decimal_toLong_le (size : ℤ) : (decimal (toLong size)).length ≤ 43 :=
  (length_decimal_le (by decide : 0 < 19) (natAbs_toLong_lt size)).trans (by decide)

/-- A hit stays inside its block and the log line, and answers with the content. -/
theorem serveHit_eq (m : WorkerMemory) (numbers : LogNumbers) {request : CString} (contentType : CString)
    {content : List UInt8} (hrequest : request.length ≤ 1023) (hsize : content.length < 2 ^ 31) :
    ∃ logMessage, serveHit m numbers request contentType content =
      some ⟨returnResult contentType content content.length, none, logMessage⟩ := by
  obtain ⟨hint, hcount⟩ := toSizeT_toInt hsize
  obtain ⟨logMessage, hlog⟩ := exists_logMessage m numbers _ (bytes "HIT") hrequest
    (length_decimal_toLong_le content.length) (by decide)
  refine ⟨logMessage, ?_⟩
  simp only [serveHit, hint, hcount]
  rw [memset_of_le 0 (by simp), Option.bind_eq_bind, Option.bind_some, List.take_length,
    memcpy_of_le (by simp), storeBytes_of_length (by simp), Option.bind_some, hlog]
  rfl

/-- A miss without a file stays inside the log line. -/
theorem serveNoFile_eq (m : WorkerMemory) (numbers : LogNumbers) {request : CString}
    (hrequest : request.length ≤ 1023) :
    ∃ logMessage, serveNoFile m numbers request = some ⟨missResponse request .statFails, none,
      logMessage⟩ := by
  obtain ⟨logMessage, hlog⟩ := exists_logMessage m numbers
      (bytes "Couldn't retrieve file size, file not found")
    (bytes "MISS") hrequest (by decide) (by decide)
  refine ⟨logMessage, ?_⟩
  simp only [serveNoFile]
  rw [hlog]
  rfl

/-- The block for a file is cleared before it is read, and so is the byte behind it. -/
theorem clearFileBlock (garbage : ℕ → UInt8) {size : ℕ} (hsize : size < 2 ^ 31) :
    ((writeSlot (malloc garbage (toSizeT (size + 1))) size 0).bind fun buf => memset buf 0 size) =
      some (List.replicate (size + 1) 0) := by
  have halloc : toSizeT ((size : ℤ) + 1) = size + 1 := by
    exact_mod_cast toSizeT_natCast (n := size + 1) (by omega)
  have hlength : ((malloc garbage (size + 1)).set size 0).length = size + 1 := by
    rw [List.length_set, length_malloc]
  have hlast : ((malloc garbage (size + 1)).set size 0).drop size = [0] := by
    rw [List.drop_eq_getElem_cons (by omega), List.getElem_set_self, List.drop_eq_nil_of_le (by omega)]
  rw [halloc, writeSlot_natCast _ _ _ (by simp), Option.bind_some, memset_of_le 0 (by omega), hlast,
    List.replicate_succ']

/-- The entry for a file is made inside its arrays, and holds the file. -/
theorem makeCacheEntry_eq (m : WorkerMemory) {request : CString} (memory : List UInt8) {size : ℕ}
    (hrequest : request.length ≤ 1023) (hzero : 0 ∉ request) (hsize : size < 2 ^ 31)
    (hmemory : size ≤ memory.length) :
    makeCacheEntry m request memory size = some (newCacheEntry request memory size) := by
  have hcount := (toSizeT_toInt hsize).2
  have hcopied := strcpy_of_lt m.entryRequest request (by
    rw [m.entryRequest_length]
    omega)
  simp only [makeCacheEntry, newCacheEntry, hcount]
  rw [hcopied, Option.bind_eq_bind, Option.bind_some, memset_of_le 0 (by simp), Option.bind_some,
    memcpy_of_le (by simp), storeBytes_of_length (by simp [hmemory]), Option.bind_some,
    (strcpy_eq_some hzero hcopied).1]

/-- The bytes which were read, and zero bytes up to the size of the file. -/
theorem take_fileBlock {size : ℕ} {data : List UInt8} (hdata : data.length ≤ size) :
    (storeBytes (List.replicate (size + 1) 0) data).take size = fileBuffer size data := by
  have hrest : size + 1 - data.length = (size - data.length) + 1 := by omega
  rw [storeBytes, List.drop_replicate, hrest, List.replicate_succ', ← List.append_assoc, fileBuffer]
  apply List.take_left'
  rw [List.length_append, List.length_replicate]
  omega

/-- A file which is read stays inside its block, its entry and the log line, and answers with its
bytes. -/
theorem serveFile_reads (m : WorkerMemory) (numbers : LogNumbers) {request : CString}
    (contentType : CString) {size : ℕ} {data : List UInt8} (hdata : data.length ≤ readCount size)
    (hrequest : request.length ≤ 1023) (hzero : 0 ∉ request) (hsize : size < 2 ^ 31) :
    ∃ logMessage, serveFile m numbers request contentType size (.reads data hdata) =
      some ⟨returnResult contentType (fileBuffer size data) size,
        some (newCacheEntry request (fileBuffer size data) size), logMessage⟩ := by
  obtain ⟨hint, hcount⟩ := toSizeT_toInt hsize
  have hdata' : data.length ≤ size := by rwa [readCount, hint, hcount] at hdata
  obtain ⟨logMessage, hlog⟩ := exists_logMessage m numbers _ (bytes "MISS") hrequest
    (length_decimal_toLong_le size) (by decide)
  have hread : readFromDisk (.reads data hdata) (List.replicate (size + 1) 0) =
      some (0, storeBytes (List.replicate (size + 1) 0) data) := by
    rw [readFromDisk, memcpy_of_le (by rw [List.length_replicate]; omega), Option.map_some]
  have hentry := makeCacheEntry_eq m
      (storeBytes (List.replicate (size + 1) 0) data) hrequest hzero hsize (by
    rw [length_storeBytes (by rw [List.length_replicate]; omega), List.length_replicate]
    omega)
  have htake := take_fileBlock hdata'
  have hall : (fileBuffer size data).take size = fileBuffer size data :=
    List.take_of_length_le (length_fileBuffer hdata').le
  refine ⟨logMessage, ?_⟩
  simp only [serveFile, Option.bind_eq_bind]
  rw [← Option.bind_assoc, clearFileBlock m.fileGarbage hsize, Option.bind_some, hread, Option.bind_some]
  simp only [hint, hentry, hlog, Option.bind_some, returnResult, newCacheEntry, hcount, htake, hall]
  rfl

/-- A file which is not read is answered with the text about it, inside the log line, if its block has
room for the text. -/
theorem serveFile_fails (m : WorkerMemory) (numbers : LogNumbers) {request : CString}
    (contentType : CString) {size : ℕ} {read : FileRead size} (hfails : read.Fails)
    (hrequest : request.length ≤ 1023) (hsize : size < 2 ^ 31) (hroom : 23 ≤ size) :
    ∃ logMessage, serveFile m numbers request contentType size read =
      some ⟨missResponse request (.readFails size), none, logMessage⟩ := by
  have htext : (bytes "Error reading from disk").length = 23 := rfl
  obtain ⟨logMessage, hlog⟩ := exists_logMessage m numbers (bytes "Error reading from disk")
      (bytes "MISS") hrequest
    (by decide) (by decide)
  have hcopied := strcpy_of_lt (List.replicate (size + 1) 0) (bytes "Error reading from disk") (by
    rw [htext, List.length_replicate]
    omega)
  have hread : readFromDisk read (List.replicate (size + 1) 0) =
      some (-1, storeBytes (List.replicate (size + 1) 0) (bytes "Error reading from disk" ++ [0])) := by
    cases read with
    | notOpened | failed => rw [readFromDisk, hcopied, Option.map_some]
    | reads data hdata => exact hfails.elim
  refine ⟨logMessage, ?_⟩
  simp only [serveFile, Option.bind_eq_bind]
  rw [← Option.bind_assoc, clearFileBlock m.fileGarbage hsize, Option.bind_some, hread, Option.bind_some]
  simp only [(strcpy_eq_some (by decide) hcopied).1, hlog, Option.bind_some]
  rfl

/-- The text about a file which is not read leaves the block of a small file. -/
theorem serveFile_eq_none (m : WorkerMemory) (numbers : LogNumbers) (request contentType : CString)
    {size : ℕ} {read : FileRead size} (hfails : read.Fails) (hsmall : size < 23) :
    serveFile m numbers request contentType size read = none := by
  have htext : (bytes "Error reading from disk").length = 23 := rfl
  have hcopied : strcpy (List.replicate (size + 1) 0) (bytes "Error reading from disk") = none := by
    rw [strcpy, htext, List.length_replicate, if_neg (by omega)]
  have hread : readFromDisk read (List.replicate (size + 1) 0) = none := by
    cases read with
    | notOpened | failed => rw [readFromDisk, hcopied, Option.map_none]
    | reads data hdata => exact hfails.elim
  simp only [serveFile, Option.bind_eq_bind]
  rw [← Option.bind_assoc, clearFileBlock m.fileGarbage (by omega), Option.bind_some, hread,
    Option.bind_none]

/-- The path is written to a block which it fills. -/
theorem exists_absolutePath (m : WorkerMemory) (workingDir request : CString) :
    ∃ path, makeAbsolutePath m workingDir request = some path := by
  refine ⟨_, strcpy_of_lt _ _ ?_⟩
  rw [length_malloc, absolutePath, List.length_append]
  exact Nat.lt_succ_self _

/-- What the disk reports, for the model of the workers on one cache. -/
def FileRead.outcome {size : ℕ} : FileRead size → DiskOutcome
  | .notOpened | .failed => .readFails size
  | .reads data _ => .reads size data

/-- The response of an iteration, in the model of the workers on one cache. -/
def Lookup.response (request : CString) : Lookup → Response
  | .hit content => hitResponse request (newCacheEntry request content content.length)
  | .noFile => missResponse request .statFails
  | .file _ read => missResponse request read.outcome

/-- The request in its array is a string of at most 1023 characters. -/
theorem request_bounds (request : StringBuffer 1024) :
    request.string.length ≤ 1023 ∧ 0 ∉ request.string :=
  ⟨Nat.le_of_lt_succ request.length_string_lt, zero_not_mem_cString _⟩

/-- An iteration which stays inside its buffers gives the response of the worker. -/
theorem exists_served (m : WorkerMemory) (workingDir : CString) (request : StringBuffer 1024)
    (numbers : LogNumbers) {lookup : Lookup} (hsize : lookup.size < 2 ^ 31)
    (hroom : lookup.HoldsErrorText) :
    ∃ served, serveRequest m workingDir request numbers lookup = some served ∧
      served.response = lookup.response request.string := by
  obtain ⟨hrequest, hzero⟩ := request_bounds request
  obtain ⟨contentType, htype, hname⟩ := exists_contentType m request.string
  obtain ⟨path, hpath⟩ := exists_absolutePath m workingDir request.string
  rw [serveRequest, htype, Option.bind_eq_bind, Option.bind_some, hname]
  cases lookup with
  | hit content =>
    have hlength : content.length < 2 ^ 31 := hsize
    obtain ⟨logMessage, hserve⟩ := serveHit_eq m numbers (getContentType request.string) hrequest hlength
    obtain ⟨hint, hcount⟩ := toSizeT_toInt hlength
    refine ⟨_, hserve, ?_⟩
    simp only [Lookup.response, hitResponse, newCacheEntry, hcount, hint, List.take_length]
  | noFile =>
    obtain ⟨logMessage, hserve⟩ := serveNoFile_eq m numbers hrequest
    simp only [hpath, Option.bind_some]
    exact ⟨_, hserve, rfl⟩
  | file size read =>
    have hsize' : size < 2 ^ 31 := hsize
    simp only [hpath, Option.bind_some]
    by_cases hfails : read.Fails
    · obtain ⟨logMessage, hserve⟩ := serveFile_fails m numbers
          (getContentType request.string) hfails hrequest hsize'
        (hroom hfails)
      refine ⟨_, hserve, ?_⟩
      cases read with
      | notOpened | failed => rfl
      | reads => exact hfails.elim
    · cases read with
      | notOpened | failed => exact absurd trivial hfails
      | reads data hdata =>
        obtain ⟨logMessage, hserve⟩ :=
          serveFile_reads m numbers (getContentType request.string) hdata hrequest hzero hsize'
        refine ⟨_, hserve, ?_⟩
        simp only [Lookup.response, FileRead.outcome, missResponse, (toSizeT_toInt hsize').1]

/-- With a file of fewer bytes which cannot be opened or read, the iteration writes past the end of its
block. -/
theorem serveRequest_eq_none (m : WorkerMemory) (workingDir : CString) (request : StringBuffer 1024)
    (numbers : LogNumbers) {size : ℕ} {read : FileRead size} (hfails : read.Fails) (hsmall : size < 23) :
    serveRequest m workingDir request numbers (.file size read) = none := by
  obtain ⟨contentType, htype, -⟩ := exists_contentType m request.string
  obtain ⟨path, hpath⟩ := exists_absolutePath m workingDir request.string
  have hserve := serveFile_eq_none m numbers request.string (cString contentType) hfails hsmall
  simp only [serveRequest, htype, hpath, Option.bind_eq_bind, Option.bind_some]
  exact hserve

/-- Every write of an iteration is inside its array or block exactly if a file which cannot be opened or
read has at least 23 bytes. -/
theorem serveRequest_isSome_iff (m : WorkerMemory) (workingDir : CString) (request : StringBuffer 1024)
    (numbers : LogNumbers) (lookup : Lookup) (hsize : lookup.size < 2 ^ 31) :
    (serveRequest m workingDir request numbers lookup).isSome = true ↔ lookup.HoldsErrorText := by
  constructor
  · intro hinside
    cases lookup with
    | hit | noFile => trivial
    | file size read =>
      intro hfails
      by_contra hsmall
      rw [serveRequest_eq_none m workingDir request numbers hfails (Nat.lt_of_not_le hsmall)] at hinside
      exact absurd hinside Bool.false_ne_true
  · intro hroom
    obtain ⟨served, hserve, -⟩ := exists_served m workingDir request numbers hsize hroom
    rw [hserve]
    rfl

/-- Memory of zero bytes. -/
def zeroMemory : WorkerMemory where
  contentType := List.replicate 11 0
  contentType_length := List.length_replicate
  logMessage := List.replicate 2048 0
  logMessage_length := List.length_replicate
  entryRequest := List.replicate 1024 0
  entryRequest_length := List.length_replicate
  pathGarbage := fun _ => 0
  fileGarbage := fun _ => 0
  entryGarbage := fun _ => 0
  hitGarbage := fun _ => 0

/-- The size of the array of a request is not zero. -/
theorem neZero_request : NeZero 1024 := ⟨by decide⟩

/-- A request for `/x`, in its array. -/
def smallRequest : StringBuffer 1024 :=
  ((@StringBuffer.zeroed 1024 neZero_request).strcpy (bytes "/x")).getD
    (@StringBuffer.zeroed 1024 neZero_request)

/-- A file of 23 bytes which cannot be opened is answered inside the buffers. -/
theorem serveRequest_isSome_iff_text :
    (serveRequest zeroMemory (bytes "/srv") smallRequest ⟨0, 1, 4, 10⟩
      (.file 23 .notOpened)).isSome = true :=
  (serveRequest_isSome_iff zeroMemory (bytes "/srv") smallRequest ⟨0, 1, 4, 10⟩ (.file 23 .notOpened)
    (by decide)).mpr fun _ => le_rfl

/-- The text about a file of five bytes which cannot be opened is written past the end of its block of
six. -/
theorem serveRequest_fiveBytes :
    ¬ ∀ (m : WorkerMemory) (workingDir : CString) (request : StringBuffer 1024)
    (numbers : LogNumbers) (lookup : Lookup), lookup.size < 2 ^ 31 →
      (serveRequest m workingDir request numbers lookup).isSome = true := by
  intro hall
  have hfails : (FileRead.notOpened : FileRead 5).Fails := trivial
  have hinside := hall zeroMemory (bytes "/srv") smallRequest ⟨0, 1, 4, 10⟩ (.file 5 .notOpened)
      (by decide)
  rw [serveRequest_eq_none zeroMemory (bytes "/srv") smallRequest ⟨0, 1, 4, 10⟩ hfails
    (by decide)] at hinside
  exact absurd hinside Bool.false_ne_true

end Csci4061.WebServer
