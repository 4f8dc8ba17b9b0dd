import Lithair.Http.Query
import Lithair.Lib.Split
import Lithair.Lib.Utf8
import Mathlib.Data.Finmap

/-!
# Parsing of HTTP requests

`http/request.rs`: a request parsed from the bytes that were received for it. What a client sends as
a request is a `Message`: a request line, field lines and a body, where the fields that give the
length of the body give its length. `parse_bytes` says what the server makes of it: the request that
was sent, if the body is a text, and an error if it is not.
-/

namespace Lithair.Http.Server

open Lithair.Lib.Text Lithair.Lib.Utf8 Lithair.Lib.Split

/-- The case mappings of Unicode, and what is used of them: what they make of ASCII characters. -/
structure CaseMapping where
  toLowercase : List Char → List Char
  toUppercase : List Char → List Char
  lowercase_ascii : ∀ text, (∀ c ∈ text, c.toNat < 128) → toLowercase text = text.map Char.toLower
  uppercase_ascii : ∀ text, (∀ c ∈ text, c.toNat < 128) → toUppercase text = text.map Char.toUpper
  lowercase_append : ∀ first rest, (∀ c ∈ first, c.toNat < 128) →
    first.map Char.toLower <+: toLowercase (first ++ rest)

/-- The mappings where there are ASCII letters only. -/
def CaseMapping.ascii : CaseMapping where
  toLowercase := List.map Char.toLower
  toUppercase := List.map Char.toUpper
  lowercase_ascii := fun _ _ ↦ rfl
  uppercase_ascii := fun _ _ ↦ rfl
  lowercase_append := fun _ rest _ ↦ ⟨rest.map Char.toLower, List.map_append.symm⟩

/-- Why a read of a connection fails: the read timeout passed, a line is not a text, the connection
ended too early. -/
inductive IoError
  | wouldBlock
  | invalidData
  | unexpectedEof
  deriving DecidableEq

/-- The errors of a request: a message, and the text it is about. The texts of Rust's own errors
are left out. -/
inductive HttpError
  | invalidRequest (message : String) (about : List Char)
  | unsupportedMethod (method : List Char)
  | invalidHeaders (message : String) (about : List Char)
  | bodyTooLarge (size : ℕ)
  | connectionError (message : String) (cause : IoError)
  deriving DecidableEq

inductive HttpMethod
  | get | post | put | delete | patch | head | options
  deriving DecidableEq

def HttpMethod.asStr : HttpMethod → List Char
  | .get => "GET".toList
  | .post => "POST".toList
  | .put => "PUT".toList
  | .delete => "DELETE".toList
  | .patch => "PATCH".toList
  | .head => "HEAD".toList
  | .options => "OPTIONS".toList

inductive HttpVersion
  | http1_0 | http1_1
  deriving DecidableEq

def HttpVersion.asStr : HttpVersion → List Char
  | .http1_0 => "HTTP/1.0".toList
  | .http1_1 => "HTTP/1.1".toList

/-- Texts under names, as the headers and the query parameters of a request are. -/
abbrev Entries := Finmap fun _ : List Char ↦ List Char

structure HttpRequest where
  method : HttpMethod
  path : List Char
  queryParams : Entries
  version : HttpVersion
  headers : Entries
  body : List UInt8
  remoteAddr : Option String
  deriving DecidableEq

def HttpVersion.fromStr (s : List Char) : Except HttpError HttpVersion :=
  if s = HttpVersion.asStr .http1_0 then .ok .http1_0
  else if s = HttpVersion.asStr .http1_1 then .ok .http1_1
  else .error (.invalidRequest "Unsupported HTTP version: " s)

/-! ### The target -/

def hexDigit (b : UInt8) : Option UInt8 :=
  if 48 ≤ b ∧ b ≤ 57 then some (b - 48)
  else if 97 ≤ b ∧ b ≤ 102 then some (b - 97 + 10)
  else if 65 ≤ b ∧ b ≤ 70 then some (b - 65 + 10)
  else none

/-- Bytes with a plus sign for a space, and with a percent sign and two digits for a byte. -/
def decodedBytes : List UInt8 → List UInt8
  | [] => []
  | [b] => [if b = 43 then 32 else b]
  | [b, c] => [if b = 43 then 32 else b, if c = 43 then 32 else c]
  | b :: hi :: lo :: rest =>
    if b = 43 then 32 :: decodedBytes (hi :: lo :: rest)
    else if b = 37 then
      match hexDigit hi, hexDigit lo with
      | some high, some low => (high <<< 4 ||| low) :: decodedBytes rest
      | _, _ => b :: decodedBytes (hi :: lo :: rest)
    else b :: decodedBytes (hi :: lo :: rest)

/-- What the bytes decode to, if it is a text. -/
def urlcodeDecode (s : List Char) : List Char :=
  (fromUtf8 (decodedBytes (utf8 s))).getD s

/-- One query parameter, with or without a value. -/
def addQueryParam (params : Entries) (pair : List Char) : Entries :=
  match splitOnce '=' pair with
  | some (key, value) => params.insert (urlcodeDecode key) (urlcodeDecode value)
  | none => if pair = [] then params else params.insert (urlcodeDecode pair) []

def parsePathAndQuery (fullPath : List Char) : List Char × Entries :=
  match splitOnce '?' fullPath with
  | none => (fullPath, ∅)
  | some (path, queryString) => (path, (queryString.splitOn '&').foldl addQueryParam ∅)

def HttpRequest.new (method : HttpMethod) (path : List Char) (version : HttpVersion)
    (headers : Entries) (body : List UInt8) : HttpRequest where
  method := method
  path := (parsePathAndQuery path).1
  queryParams := (parsePathAndQuery path).2
  version := version
  headers := headers
  body := body
  remoteAddr := none

/-! ### Parsing -/

section Parse

variable (cases : CaseMapping)

def HttpMethod.fromStr (s : List Char) : Except HttpError HttpMethod :=
  match [HttpMethod.get, .post, .put, .delete, .patch, .head, .options].find?
    (·.asStr = cases.toUppercase s) with
  | some method => .ok method
  | none => .error (.unsupportedMethod s)

/-- The parts of a text between white space. -/
def splitWhitespace (text : List Char) : List (List Char) :=
  (text.splitOnP isWhitespace).filter (· ≠ [])

def parseRequestLine (line : List Char) :
    Except HttpError (HttpMethod × List Char × HttpVersion) :=
  match splitWhitespace line with
  | [method, path, version] => do
    let method ← HttpMethod.fromStr cases method
    let version ← HttpVersion.fromStr version
    return (method, path, version)
  | _ => .error (.invalidRequest "Invalid request line: " line)

/-- The headers of lines, put in after `headers`. Of several with one name the last counts. -/
def addHeaders : List (List Char) → Entries → Except HttpError Entries
  | [], headers => .ok headers
  | line :: lines, headers =>
    if line = [] then addHeaders lines headers
    else
      match splitOnce ':' line with
      | none => .error (.invalidHeaders "Invalid header line: " line)
      | some (name, value) =>
        addHeaders lines (headers.insert (cases.toLowercase (trim name)) (trim value))

def parseHeaders (lines : List (List Char)) : Except HttpError Entries := addHeaders cases lines ∅

def crlf : List Char := ['\r', '\n']

def HttpRequest.parse (rawRequest : List UInt8) : Except HttpError HttpRequest :=
  match fromUtf8 rawRequest with
  | none => .error (.invalidRequest "Invalid UTF-8: " [])
  | some requestStr =>
    match splitFirst (crlf ++ crlf) requestStr with
    | (headersSection, body) =>
      match splitAll crlf headersSection with
      | [] => .error (.invalidRequest "No request line" [])
      | requestLine :: headerLines => do
        let (method, path, version) ← parseRequestLine cases requestLine
        let headers ← parseHeaders cases headerLines
        return .new method path version headers (utf8 (body.getD []))

end Parse

/-! ### What a client sends -/

/-- A field line: a name of visible ASCII characters without a colon, and a value without line
breaks, which may have blanks around it. -/
structure FieldLine where
  name : List Char
  before : List Char
  value : List Char
  after : List Char
  name_ne_nil : name ≠ []
  name_visible : ∀ c ∈ name, 33 ≤ c.toNat ∧ c.toNat ≤ 126 ∧ c ≠ ':'
  value_line : ∀ c ∈ value, c ≠ '\r' ∧ c ≠ '\n'
  value_first : ∀ c ∈ value.head?, isWhitespace c = false
  value_last : ∀ c ∈ value.getLast?, isWhitespace c = false
  blank_before : ∀ c ∈ before, c = ' ' ∨ c = '\t'
  blank_after : ∀ c ∈ after, c = ' ' ∨ c = '\t'

namespace FieldLine

def text (f : FieldLine) : List Char := f.name ++ ':' :: (f.before ++ (f.value ++ f.after))

/-- The field gives the length of the body. Names are the same in upper and lower case. -/
def IsContentLength (f : FieldLine) : Prop := f.name.map Char.toLower = "content-length".toList

instance (f : FieldLine) : Decidable f.IsContentLength :=
  inferInstanceAs (Decidable (_ = _))

end FieldLine

/-- A well-formed request: the target has no white space, and the fields that give the length of the
body give its length. Without a body there need be none. -/
structure Message where
  method : HttpMethod
  target : List Char
  version : HttpVersion
  fields : List FieldLine
  body : List UInt8
  target_ne_nil : target ≠ []
  target_visible : ∀ c ∈ target, isWhitespace c = false
  content_length : ∀ f ∈ fields, f.IsContentLength → f.value ≠ [] ∧
    f.value.all Char.isDigit = true ∧ Nat.ofDigitChars 10 f.value 0 = body.length
  length_given : body ≠ [] → ∃ f ∈ fields, f.IsContentLength

namespace Message

def requestLine (m : Message) : List Char :=
  m.method.asStr ++ ' ' :: (m.target ++ ' ' :: m.version.asStr)

def lines (m : Message) : List (List Char) := m.requestLine :: m.fields.map FieldLine.text

/-- All up to the body: the lines and an empty one. -/
def head (m : Message) : List Char := endEach crlf m.lines ++ crlf

def bytes (m : Message) : List UInt8 := utf8 m.head ++ m.body

def headers (m : Message) : Entries :=
  m.fields.foldl (fun headers f ↦ headers.insert (f.name.map Char.toLower) f.value) ∅

/-- The request that is sent. -/
def request (m : Message) : HttpRequest :=
  .new m.method m.target m.version m.headers m.body

end Message

/-! ### A request that is sent parses -/

theorem not_isWhitespace {c : Char} (h : 33 ≤ c.toNat ∧ c.toNat ≤ 126) :
    isWhitespace c = false := by
  unfold isWhitespace
  simp
  omega

/-- What has no white space has no line break. -/
theorem line_of_visible {text : List Char} (h : ∀ c ∈ text, isWhitespace c = false) :
    ∀ c ∈ text, c ≠ '\r' ∧ c ≠ '\n' := by
  intro c hc
  constructor
  · rintro rfl
    exact absurd (h _ hc) (by decide)
  · rintro rfl
    exact absurd (h _ hc) (by decide)

theorem visible_asStr (method : HttpMethod) :
    method.asStr ≠ [] ∧ ∀ c ∈ method.asStr, isWhitespace c = false := by
  cases method <;> exact ⟨by decide, forall_of_all (by decide)⟩

theorem visible_version (version : HttpVersion) :
    version.asStr ≠ [] ∧ ∀ c ∈ version.asStr, isWhitespace c = false := by
  cases version <;> exact ⟨by decide, forall_of_all (by decide)⟩

theorem asStr_ascii (method : HttpMethod) : ∀ c ∈ method.asStr, c.toNat < 128 := by
  cases method <;> exact forall_of_all (by decide)

namespace FieldLine

variable (f : FieldLine)

theorem visible_name : ∀ c ∈ f.name, isWhitespace c = false :=
  fun c hc ↦ not_isWhitespace ⟨(f.name_visible c hc).1, (f.name_visible c hc).2.1⟩

theorem name_ascii : ∀ c ∈ f.name, c.toNat < 128 :=
  fun c hc ↦ Nat.lt_of_le_of_lt (f.name_visible c hc).2.1 (by decide)

theorem trim_name : trim f.name = f.name := by
  have htrim := @trim_padded [] f.name [] nofun nofun
    (fun c hc ↦ f.visible_name c (List.mem_of_mem_head? hc))
    (fun c hc ↦ f.visible_name c (List.mem_of_getLast? hc))
  rwa [List.append_nil] at htrim

theorem trim_value : trim (f.before ++ (f.value ++ f.after)) = f.value := by
  refine trim_padded (fun c hc ↦ ?_) (fun c hc ↦ ?_) f.value_first f.value_last
  · rcases f.blank_before c hc with rfl | rfl <;> rfl
  · rcases f.blank_after c hc with rfl | rfl <;> rfl

theorem splitOnce_text :
    splitOnce ':' f.text = some (f.name, f.before ++ (f.value ++ f.after)) := by
  have hname : ∀ c ∈ f.name, decide (c ≠ ':') = true :=
    fun c hc ↦ decide_eq_true (f.name_visible c hc).2.2
  unfold splitOnce text
  rw [if_pos (List.mem_append_right _ List.mem_cons_self), List.takeWhile_append_of_pos hname,
    List.dropWhile_append_of_pos hname]
  simp

theorem text_ne_nil : f.text ≠ [] := List.append_ne_nil_of_right_ne_nil _ (List.cons_ne_nil _ _)

/-- A field line has no line break. -/
theorem text_line : ∀ c ∈ f.text, c ≠ '\r' ∧ c ≠ '\n' := by
  intro c hc
  unfold text at hc
  rcases List.mem_append.mp hc with hc | hc
  · exact line_of_visible f.visible_name c hc
  rcases List.mem_cons.mp hc with rfl | hc
  · decide
  rcases List.mem_append.mp hc with hc | hc
  · rcases f.blank_before c hc with rfl | rfl <;> decide
  rcases List.mem_append.mp hc with hc | hc
  · exact f.value_line c hc
  · rcases f.blank_after c hc with rfl | rfl <;> decide

end FieldLine

section Message

variable (cases : CaseMapping) (m : Message)

theorem fromStr_asStr (method : HttpMethod) :
    HttpMethod.fromStr cases method.asStr = .ok method := by
  unfold HttpMethod.fromStr
  rw [cases.uppercase_ascii _ (asStr_ascii method)]
  cases method <;> rfl

theorem fromStr_version (version : HttpVersion) :
    HttpVersion.fromStr version.asStr = .ok version := by
  cases version <;> rfl

theorem splitWhitespace_requestLine :
    splitWhitespace m.requestLine = [m.method.asStr, m.target, m.version.asStr] := by
  obtain ⟨hmethodNe, hmethod⟩ := visible_asStr m.method
  obtain ⟨hversionNe, hversion⟩ := visible_version m.version
  unfold splitWhitespace Message.requestLine
  rw [List.splitOnP_append_cons_of_forall_mem hmethod ' ' rfl,
    List.splitOnP_append_cons_of_forall_mem m.target_visible ' ' rfl,
    List.splitOnP_eq_singleton hversion]
  simp [hmethodNe, hversionNe, m.target_ne_nil]

theorem parseRequestLine_requestLine :
    parseRequestLine cases m.requestLine = .ok (m.method, m.target, m.version) := by
  unfold parseRequestLine
  rw [splitWhitespace_requestLine]
  simp only [fromStr_asStr, fromStr_version]
  rfl

theorem addHeaders_texts (fields : List FieldLine) (headers : Entries) :
    addHeaders cases (fields.map FieldLine.text) headers = .ok (fields.foldl
      (fun headers f ↦ headers.insert (f.name.map Char.toLower) f.value) headers) := by
  induction fields generalizing headers with
  | nil => rfl
  | cons f fields ih =>
    rw [List.map_cons, addHeaders, if_neg f.text_ne_nil, f.splitOnce_text]
    simp only [f.trim_name, f.trim_value, cases.lowercase_ascii _ f.name_ascii, ih]
    rfl

theorem requestLine_ne_nil : m.requestLine ≠ [] :=
  List.append_ne_nil_of_right_ne_nil _ (List.cons_ne_nil _ _)

theorem requestLine_line : ∀ c ∈ m.requestLine, c ≠ '\r' ∧ c ≠ '\n' := by
  intro c hc
  unfold Message.requestLine at hc
  rcases List.mem_append.mp hc with hc | hc
  · exact line_of_visible (visible_asStr m.method).2 c hc
  rcases List.mem_cons.mp hc with rfl | hc
  · decide
  rcases List.mem_append.mp hc with hc | hc
  · exact line_of_visible m.target_visible c hc
  rcases List.mem_cons.mp hc with rfl | hc
  · decide
  · exact line_of_visible (visible_version m.version).2 c hc

theorem lines_spec : ∀ line ∈ m.lines, line ≠ [] ∧ ∀ c ∈ line, c ≠ '\r' ∧ c ≠ '\n' := by
  intro line hline
  rcases List.mem_cons.mp hline with rfl | hline
  · exact ⟨requestLine_ne_nil m, requestLine_line m⟩
  · obtain ⟨f, -, rfl⟩ := List.mem_map.mp hline
    exact ⟨f.text_ne_nil, f.text_line⟩

/-- What was sent as a request parses as it, if its body is a text. -/
theorem parse_bytes : HttpRequest.parse cases m.bytes =
    if fromUtf8 m.body = none then .error (.invalidRequest "Invalid UTF-8: " [])
    else .ok m.request := by
  unfold HttpRequest.parse Message.bytes
  rw [fromUtf8_utf8_append]
  cases hbody : fromUtf8 m.body with
  | none => rfl
  | some body =>
    have hfree : ∀ line ∈ m.lines, line ≠ [] ∧ '\r' ∉ line := fun line hline ↦
      ⟨(lines_spec m line hline).1, fun h ↦ ((lines_spec m line hline).2 _ h).1 rfl⟩
    have hfirst : splitFirst (crlf ++ crlf) (m.head ++ body) =
        (crlf.intercalate m.lines, some body) := by
      rw [Message.head, List.append_assoc]
      exact splitFirst_twice (by decide) (List.cons_ne_nil _ _) hfree body
    have hall : splitAll crlf (crlf.intercalate m.lines) = m.lines :=
      splitAll_intercalate (List.cons_ne_nil _ _) fun line hline ↦ (hfree line hline).2
    have hheaders : parseHeaders cases (m.fields.map FieldLine.text) = .ok m.headers :=
      addHeaders_texts cases m.fields ∅
    rw [if_neg (Option.some_ne_none body), Option.map_some]
    simp only [hfirst, hall]
    unfold Message.lines
    simp only [parseRequestLine_requestLine, hheaders]
    rw [Option.getD_some, fromUtf8_eq_some_iff.mp hbody]
    rfl

end Message

end Lithair.Http.Server
