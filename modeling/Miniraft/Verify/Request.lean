import Miniraft.Raft.Request
import Miniraft.Verify.Utf8

/-!
# Reading HTTP requests

What `fromStream` makes of a stream is told by the lines of the stream (`run_fromStream`): the words
of the first one, the headers in those before the blank line (`headerTexts`), and the bytes behind
it (`afterBlank`). Reading always ends, but it panics if there is no URI or if the announced length
cannot be allocated (`returns_iff`), and it takes a body that ends early for a complete one
(`bodyComplete_iff`).
-/

namespace Miniraft

open Json (asBytes ascii)

/-! ## Lines -/

/-- The lines of a stream, each with its line feed. -/
def lines : List UInt8 → List (List UInt8)
  | [] => []
  | b :: bytes =>
    if b = ascii '\n' then [b] :: lines bytes
    else
      match lines bytes with
      | [] => [[b]]
      | line :: rest => (b :: line) :: rest

def crlf : List UInt8 := asBytes "\r\n"

section

variable {b : UInt8} {bytes w rest line : List UInt8} {s t : String}

theorem lines_eq (h : bytes ≠ []) :
    lines bytes = (splitLine bytes).1 :: lines (splitLine bytes).2 := by
  induction bytes with
  | nil => exact absurd rfl h
  | cons b bytes ih =>
    rw [lines, splitLine]
    split
    · rfl
    · cases bytes with
      | nil => rfl
      | cons b' bytes =>
        rw [ih (List.cons_ne_nil _ _)]

theorem flatten_lines (bytes : List UInt8) : (lines bytes).flatten = bytes := by
  induction bytes with
  | nil => rfl
  | cons b bytes ih =>
    rw [lines]
    split
    · rw [List.flatten_cons, ih]
      rfl
    · split
      · next hnil =>
        rw [hnil] at ih
        rw [← ih]
        rfl
      · next line rest hcons =>
        rw [hcons] at ih
        rw [← ih]
        rfl

theorem splitLine_of_line (hw : ascii '\n' ∉ w) :
    splitLine (w ++ ascii '\n' :: rest) = (w ++ [ascii '\n'], rest) := by
  induction w with
  | nil => rfl
  | cons b w ih =>
    have hne : b ≠ ascii '\n' := fun h => hw (h ▸ List.mem_cons_self)
    rw [List.cons_append, splitLine, if_neg hne, ih fun h => hw (List.mem_cons_of_mem _ h)]
    rfl

theorem splitLine_fst_ne_nil (h : bytes ≠ []) : (splitLine bytes).1 ≠ [] := by
  cases bytes with
  | nil => exact absurd rfl h
  | cons b bytes =>
    rw [splitLine]
    split
    · exact List.cons_ne_nil _ _
    · exact List.cons_ne_nil _ _

theorem splitLine_fst_append_snd (bytes : List UInt8) :
    (splitLine bytes).1 ++ (splitLine bytes).2 = bytes := by
  rcases eq_or_ne bytes [] with rfl | hne
  · rfl
  · have hlines := flatten_lines bytes
    rwa [lines_eq hne, List.flatten_cons, flatten_lines] at hlines

theorem length_splitLine_lt (h : bytes ≠ []) : (splitLine bytes).2.length < bytes.length := by
  have hlength := congrArg List.length (splitLine_fst_append_snd bytes)
  have hpos := List.length_pos_iff.mpr (splitLine_fst_ne_nil h)
  rw [List.length_append] at hlength
  omega

theorem utf8_eq_some_iff : utf8 w = some t ↔ w = asBytes t := Json.fromUTF8?_eq_some_iff_asBytes

theorem utf8_eq_crlf_iff (h : utf8 line = some t) : t = "\r\n" ↔ line = crlf := by
  constructor
  · rintro rfl
    exact utf8_eq_some_iff.mp h
  · rintro rfl
    exact Option.some.inj (h.symm.trans (utf8_eq_some_iff.mpr rfl))

end

/-! ## What a stream says -/

/-- The lines between the first one and the blank one. -/
def headerLines (stream : List UInt8) : List (List UInt8) :=
  (lines (splitLine stream).2).takeWhile (· ≠ crlf)

/-- The bytes behind the blank line. -/
def afterBlank (stream : List UInt8) : List UInt8 :=
  ((lines (splitLine stream).2).dropWhile (· ≠ crlf)).tail.flatten

def headerTexts (stream : List UInt8) : Option (List String) := (headerLines stream).mapM utf8

def requestWords (stream : List UInt8) : Option (List String) :=
  (utf8 (splitLine stream).1).map fun request =>
    (splitWhitespace request.toList).map String.ofList

/-- The headers with that of a line, if it is one. -/
def addHeader (headers : Map String String) (text : String) : Map String String :=
  match splitOnce (trim text.toList) with
  | none => headers
  | some (key, value) => headers.insert (String.ofList key) (String.ofList value)

def headersOf (texts : List String) : Map String String := texts.foldl addHeader ∅

section

variable {headers : Map String String} {texts : List String} {text key value : String}
  {k v cs : List Char}

theorem eq_of_splitOnce (h : splitOnce cs = some (k, v)) : cs = k ++ ':' :: ' ' :: v := by
  induction cs generalizing k with
  | nil => cases h
  | cons c cs ih =>
    rw [splitOnce] at h
    split at h
    · next hsep =>
      obtain ⟨rfl, hspace⟩ := hsep
      cases h
      rw [List.nil_append, ← List.cons_head?_tail hspace]
      rfl
    · obtain ⟨⟨k', v'⟩, hsplit, heq⟩ := Option.map_eq_some_iff.mp h
      cases heq
      rw [ih hsplit]
      rfl

/-- The line is a header for `key` with `value`. -/
def IsHeader (key value text : String) : Prop :=
  splitOnce (trim text.toList) = some (key.toList, value.toList)

theorem IsHeader.lookup_addHeader (h : IsHeader key value text) :
    (addHeader headers text).lookup key = some value := by
  rw [addHeader, h]
  dsimp only
  rw [String.ofList_toList, String.ofList_toList, AList.lookup_insert]

theorem lookup_addHeader_of_not (h : ∀ value, ¬ IsHeader key value text) :
    (addHeader headers text).lookup key = headers.lookup key := by
  rw [addHeader]
  split
  · rfl
  · next k v hsplit =>
    refine AList.lookup_insert_ne fun hkey => h (String.ofList v) ?_
    rw [IsHeader, hkey, String.toList_ofList, String.toList_ofList]
    exact hsplit

theorem exists_isHeader_of_foldl (h : (texts.foldl addHeader headers).lookup key = some value) :
    (∃ text ∈ texts, IsHeader key value text) ∨ headers.lookup key = some value := by
  induction texts generalizing headers with
  | nil => exact .inr h
  | cons text texts ih =>
    rcases ih h with ⟨text', hmem, htext'⟩ | hlookup
    · exact .inl ⟨text', List.mem_cons_of_mem _ hmem, htext'⟩
    · by_cases htext : ∃ value', IsHeader key value' text
      · obtain ⟨value', htext⟩ := htext
        rw [htext.lookup_addHeader] at hlookup
        obtain rfl := Option.some.inj hlookup
        exact .inl ⟨text, List.mem_cons_self, htext⟩
      · rw [lookup_addHeader_of_not (not_exists.mp htext)] at hlookup
        exact .inr hlookup

/-- A header comes from a line. -/
theorem exists_isHeader (h : (headersOf texts).lookup key = some value) :
    ∃ text ∈ texts, IsHeader key value text := by
  rcases exists_isHeader_of_foldl h with htext | hempty
  · exact htext
  · rw [AList.lookup_empty] at hempty
    cases hempty

theorem exists_lookup_foldl (h : (∃ text ∈ texts, ∃ value, IsHeader key value text) ∨
    ∃ value, headers.lookup key = some value) :
    ∃ value, (texts.foldl addHeader headers).lookup key = some value := by
  induction texts generalizing headers with
  | nil => exact h.resolve_left fun ⟨_, hmem, _⟩ => absurd hmem List.not_mem_nil
  | cons text texts ih =>
    refine ih ?_
    by_cases htext : ∃ value', IsHeader key value' text
    · obtain ⟨value', htext⟩ := htext
      exact .inr ⟨value', htext.lookup_addHeader⟩
    · rw [lookup_addHeader_of_not (not_exists.mp htext)]
      refine h.imp_left fun ⟨text', hmem, htext'⟩ => ⟨text', ?_, htext'⟩
      rcases List.mem_cons.mp hmem with rfl | hmem
      · exact absurd htext' htext
      · exact hmem

/-- A header is found if all lines for it say the same. -/
theorem lookup_headersOf (hmem : text ∈ texts) (htext : IsHeader key value text)
    (hunique : ∀ text' ∈ texts, ∀ value', IsHeader key value' text' → value' = value) :
    (headersOf texts).lookup key = some value := by
  have hlookup : ∃ value', (headersOf texts).lookup key = some value' :=
    exists_lookup_foldl (.inl ⟨text, hmem, value, htext⟩)
  obtain ⟨value', hlookup⟩ := hlookup
  obtain ⟨text', hmem', htext'⟩ := exists_isHeader hlookup
  rw [hlookup, hunique text' hmem' value' htext']

/-- A header depends on what the lines say about it only. -/
theorem lookup_headersOf_congr {texts' : List String} (h : List.Forall₂ (fun text text' =>
    ∀ value, IsHeader key value text ↔ IsHeader key value text') texts texts') :
    (headersOf texts).lookup key = (headersOf texts').lookup key := by
  have hfold (headers headers' : Map String String)
      (heq : headers.lookup key = headers'.lookup key) :
      (texts.foldl addHeader headers).lookup key =
        (texts'.foldl addHeader headers').lookup key := by
    induction h generalizing headers headers' with
    | nil => exact heq
    | @cons text text' texts texts' htext _ ih =>
      refine ih _ _ ?_
      by_cases hheader : ∃ value, IsHeader key value text
      · obtain ⟨value, hheader⟩ := hheader
        rw [hheader.lookup_addHeader, ((htext value).mp hheader).lookup_addHeader]
      · have hnot := not_exists.mp hheader
        rw [lookup_addHeader_of_not hnot, lookup_addHeader_of_not fun value h =>
          hnot value ((htext value).mpr h), heq]
  exact hfold ∅ ∅ rfl

end

namespace Request

/-! ## Runs -/

section

variable {alloc : Allocator} {stream : List UInt8} {headers : Map String String}
  {method : Method} {uri : String}

theorem run_readLine : readLine.run stream =
    match utf8 (splitLine stream).1 with
    | some text => .ok (((splitLine stream).1.length, text), (splitLine stream).2)
    | none => .error (.error .invalidUtf8) := by
  have hrun : readLine.run stream = (match utf8 (splitLine stream).1 with
      | some text => return ((splitLine stream).1.length, text)
      | none => throw (.error .invalidUtf8) : FromStream (ℕ × String)).run (splitLine stream).2 :=
    rfl
  rw [hrun]
  cases utf8 (splitLine stream).1 with
  | none => rfl
  | some text => rfl

theorem run_readLine_of_some {text : String} (h : utf8 (splitLine stream).1 = some text) :
    readLine.run stream = .ok (((splitLine stream).1.length, text), (splitLine stream).2) := by
  rw [run_readLine, h]

theorem run_readLine_of_none (h : utf8 (splitLine stream).1 = none) :
    readLine.run stream = .error (.error .invalidUtf8) := by
  rw [run_readLine, h]

theorem readHeadersStep_done (h : utf8 (splitLine stream).1 = some "\r\n" ∨ stream = []) :
    (readHeadersStep headers).run stream = .ok (.done headers, (splitLine stream).2) := by
  rcases h with h | rfl
  · rw [readHeadersStep, StateT.run_bind_of_ok (run_readLine_of_some h)]
    rfl
  · rfl

theorem readHeadersStep_next {text : String} (h : utf8 (splitLine stream).1 = some text)
    (hcrlf : text ≠ "\r\n") (hne : stream ≠ []) :
    (readHeadersStep headers).run stream =
      .ok (.next (addHeader headers text), (splitLine stream).2) := by
  have hlen : (splitLine stream).1.length ≠ 0 :=
    fun hzero => splitLine_fst_ne_nil hne (List.length_eq_zero_iff.mp hzero)
  rw [readHeadersStep, StateT.run_bind_of_ok (run_readLine_of_some h), addHeader]
  dsimp only
  rw [if_neg (not_or.mpr ⟨hcrlf, hlen⟩)]
  cases splitOnce (trim text.toList) with
  | none => rfl
  | some kv => rfl

theorem readHeadersStep_error (h : utf8 (splitLine stream).1 = none) :
    (readHeadersStep headers).run stream = .error (.error .invalidUtf8) := by
  rw [readHeadersStep]
  exact StateT.run_bind_of_error (run_readLine_of_none h)

/-- With more fuel than there are bytes, reading the headers comes to the blank line or to the end
of the stream. -/
theorem run_loop_headers {fuel : ℕ} (hfuel : stream.length < fuel) :
    (loop .diverged readHeadersStep fuel headers).run stream =
      match ((lines stream).takeWhile (· ≠ crlf)).mapM utf8 with
      | none => .error (.error .invalidUtf8)
      | some texts => .ok (texts.foldl addHeader headers,
          ((lines stream).dropWhile (· ≠ crlf)).tail.flatten) := by
  induction fuel generalizing stream headers with
  | zero => exact absurd hfuel (Nat.not_lt_zero _)
  | succ fuel ih =>
    rw [loop]
    rcases eq_or_ne stream [] with rfl | hne
    · rfl
    rw [lines_eq hne]
    rcases eq_or_ne (splitLine stream).1 crlf with hcrlf | hcrlf
    · have hdone : utf8 (splitLine stream).1 = some "\r\n" := utf8_eq_some_iff.mpr hcrlf
      rw [StateT.run_bind_of_ok (readHeadersStep_done (.inl hdone)), List.takeWhile_cons_of_neg,
        List.dropWhile_cons_of_neg, List.tail_cons, flatten_lines]
      · rfl
      · simpa using hcrlf
      · simpa using hcrlf
    · rw [List.takeWhile_cons_of_pos (by simpa using hcrlf),
        List.dropWhile_cons_of_pos (by simpa using hcrlf), List.mapM_cons]
      cases htext : utf8 (splitLine stream).1 with
      | none =>
        exact StateT.run_bind_of_error (readHeadersStep_error htext)
      | some text =>
        have hnext : text ≠ "\r\n" := fun h => hcrlf ((utf8_eq_crlf_iff htext).mp h)
        rw [StateT.run_bind_of_ok (readHeadersStep_next htext hnext hne)]
        refine (ih ?_).trans ?_
        · have hlt := length_splitLine_lt hne
          omega
        · cases ((lines (splitLine stream).2).takeWhile (· ≠ crlf)).mapM utf8 with
          | none => rfl
          | some texts => rfl

theorem run_readHeaders : readHeaders.run (splitLine stream).2 =
    match headerTexts stream with
    | none => .error (.error .invalidUtf8)
    | some texts => .ok (headersOf texts, afterBlank stream) :=
  run_loop_headers (Nat.lt_succ_self _)

/-- A string of this capacity can be had. -/
def Allocator.Provides (alloc : Allocator) (cap : ℕ) : Prop :=
  cap ≤ isizeMax ∧ (0 < cap → alloc cap = true)

theorem run_readBody {cap : ℕ} (hcap : alloc.Provides cap) : (readBody alloc cap).run stream =
    match utf8 (stream.take cap) with
    | none => .error (.error .invalidUtf8)
    | some body => .ok (body, stream.drop cap) := by
  have hrun : (readBody alloc cap).run stream = (match utf8 (stream.take cap) with
      | some body => return body
      | none => throw (.error .invalidUtf8) : FromStream String).run (stream.drop cap) := by
    rw [readBody, if_neg (Nat.not_lt.mpr hcap.1), if_neg fun h => by simp [hcap.2 h.1] at h]
    rfl
  rw [hrun]
  cases utf8 (stream.take cap) with
  | none => rfl
  | some body => rfl

/-- Without the memory, reading the body panics or aborts. -/
theorem run_readBody_unprovided {cap : ℕ} (hcap : ¬ alloc.Provides cap) :
    ∃ f, (readBody alloc cap).run stream = .error f ∧ ∀ e, f ≠ .error e := by
  rcases Nat.lt_or_ge isizeMax cap with hlt | hle
  · refine ⟨.panicked .capacityOverflow, ?_, nofun⟩
    rw [readBody, if_pos hlt]
    rfl
  · have halloc : 0 < cap ∧ alloc cap = false := by
      by_contra hnot
      exact hcap ⟨hle, fun hpos => Bool.eq_true_of_not_eq_false fun h => hnot ⟨hpos, h⟩⟩
    refine ⟨.aborted, ?_, nofun⟩
    rw [readBody, if_neg (Nat.not_lt.mpr hle), if_pos halloc]
    rfl

/-- The length of the body, if there is a header for it. -/
def announced (headers : Map String String) : Option (Except Json.ParseIntError ℕ) :=
  (headers.lookup "Content-Length").map Json.parseU64

theorem run_readAnnounced : (readAnnounced alloc headers).run stream =
    match announced headers with
    | none => .ok (none, stream)
    | some (.error e) => .error (.error (.invalidInput e))
    | some (.ok cap) => ((readBody alloc cap).run stream).map fun x => (some x.1, x.2) := by
  rw [readAnnounced, announced]
  cases headers.lookup "Content-Length" with
  | none => rfl
  | some value =>
    dsimp only [Option.map_some]
    cases Json.parseU64 value with
    | error e => rfl
    | ok cap => exact StateT.run_map ..

theorem run_readRest : (readRest alloc method uri).run (splitLine stream).2 =
    match headerTexts stream with
    | none => .error (.error .invalidUtf8)
    | some texts => ((readAnnounced alloc (headersOf texts)).run (afterBlank stream)).map fun x =>
        (⟨method, uri, headersOf texts, x.1⟩, x.2) := by
  have hheaders := @run_readHeaders stream
  rw [readRest]
  cases htexts : headerTexts stream with
  | none =>
    rw [htexts] at hheaders
    exact StateT.run_bind_of_error hheaders
  | some texts =>
    rw [htexts] at hheaders
    rw [StateT.run_bind_of_ok hheaders]
    dsimp only
    cases hrun : (readAnnounced alloc (headersOf texts)).run (afterBlank stream) with
    | error e => exact StateT.run_bind_of_error hrun
    | ok x => exact StateT.run_bind_of_ok hrun

theorem run_fromStream : (fromStream alloc).run stream =
    match requestWords stream with
    | none => .error (.error .invalidUtf8)
    | some [] => .error (.panicked .noMethod)
    | some (word :: words) =>
      match Method.fromStr word with
      | .error e => .error (.error e)
      | .ok method =>
        match words with
        | [] => .error (.panicked .noUri)
        | uri :: _ => (readRest alloc method uri).run (splitLine stream).2 := by
  rw [fromStream, requestWords]
  cases htext : utf8 (splitLine stream).1 with
  | none =>
    exact StateT.run_bind_of_error (run_readLine_of_none htext)
  | some text =>
    rw [StateT.run_bind_of_ok (run_readLine_of_some htext)]
    dsimp only [Option.map_some]
    cases (splitWhitespace text.toList).map String.ofList with
    | nil => rfl
    | cons word words =>
      dsimp only
      cases Method.fromStr word with
      | error e => rfl
      | ok method =>
        cases words with
        | nil => rfl
        | cons uri words => rfl

end

/-! ## Requests that are read -/

/-- The body that is read from `bytes`. -/
inductive BodyIs (alloc : Allocator) (headers : Map String String) (bytes : List UInt8) :
    Option String → Prop
  | absent : announced headers = none → BodyIs alloc headers bytes none
  | present {cap body} : announced headers = some (.ok cap) → alloc.Provides cap →
    bytes.take cap = asBytes body → BodyIs alloc headers bytes (some body)

/-- `stream` is read as the request `r`. -/
structure ReadAs (alloc : Allocator) (stream : List UInt8) (r : Request) : Prop where
  requestLine : ∃ word words, requestWords stream = some (word :: r.uri :: words) ∧
    Method.fromStr word = .ok r.method
  headers : ∃ texts, headerTexts stream = some texts ∧ r.headers = headersOf texts
  body : BodyIs alloc r.headers (afterBlank stream) r.body

section

variable {alloc : Allocator} {stream rest : List UInt8} {headers : Map String String}
  {body : Option String} {method : Method} {uri : String} {r : Request}

theorem BodyIs.of_run (h : (readAnnounced alloc headers).run stream = .ok (body, rest)) :
    BodyIs alloc headers stream body := by
  rw [run_readAnnounced] at h
  split at h
  · next hnone =>
    cases h
    exact .absent hnone
  · cases h
  · next cap hcap =>
    by_cases hprovides : alloc.Provides cap
    · rw [run_readBody hprovides] at h
      split at h
      · cases h
      · next text htext =>
        cases h
        exact .present hcap hprovides (utf8_eq_some_iff.mp htext)
    · obtain ⟨f, hf, -⟩ := run_readBody_unprovided hprovides
      rw [hf] at h
      cases h

theorem BodyIs.run (h : BodyIs alloc headers stream body) :
    ∃ rest, (readAnnounced alloc headers).run stream = .ok (body, rest) := by
  rw [run_readAnnounced]
  cases h with
  | absent hnone =>
    rw [hnone]
    exact ⟨stream, rfl⟩
  | present hcap hle hbody =>
    rw [hcap]
    dsimp only
    rw [run_readBody hle, utf8_eq_some_iff.mpr hbody]
    exact ⟨_, rfl⟩

theorem ReadAs.of_run (h : (fromStream alloc).run stream = .ok (r, rest)) :
    ReadAs alloc stream r := by
  rw [run_fromStream] at h
  split at h
  · cases h
  · cases h
  · next word words hwords =>
    split at h
    · cases h
    · next method hmethod =>
      split at h
      · cases h
      · next uri words =>
        rw [run_readRest] at h
        split at h
        · cases h
        · next texts htexts =>
          cases hrun : (readAnnounced alloc (headersOf texts)).run (afterBlank stream) with
          | error e =>
            rw [hrun] at h
            cases h
          | ok x =>
            rw [hrun] at h
            cases h
            exact ⟨⟨word, words, hwords, hmethod⟩, ⟨texts, htexts, rfl⟩, .of_run hrun⟩

theorem ReadAs.run (h : ReadAs alloc stream r) :
    ∃ rest, (fromStream alloc).run stream = .ok (r, rest) := by
  obtain ⟨word, words, hwords, hmethod⟩ := h.requestLine
  obtain ⟨texts, htexts, hheaders⟩ := h.headers
  have hbody := h.body
  rw [hheaders] at hbody
  obtain ⟨rest, hrun⟩ := hbody.run
  rw [run_fromStream, hwords]
  dsimp only
  rw [hmethod]
  dsimp only
  rw [run_readRest, htexts]
  dsimp only
  rw [hrun]
  refine ⟨rest, ?_⟩
  rw [← hheaders]
  rfl

/-- What becomes a message has been read as a request. -/
theorem handleRequest_eq_ok_iff {id : MessageID} {message : ClientMessage String String} :
    handleRequest alloc id stream = .ok message ↔
      ∃ r, ReadAs alloc stream r ∧ r.tryInto id = .ok message := by
  rw [handleRequest, Except.bind_eq_ok_iff]
  constructor
  · rintro ⟨⟨r, rest⟩, hrun, h⟩
    refine ⟨r, .of_run hrun, ?_⟩
    dsimp only at h
    split at h
    · next m hm => rwa [← Except.ok.inj h]
    · cases h
  · rintro ⟨r, hr, hm⟩
    obtain ⟨rest, hrun⟩ := hr.run
    refine ⟨(r, rest), hrun, ?_⟩
    dsimp only
    rw [hm]
    rfl

theorem tryInto_congr {id : MessageID} {headers headers' : Map String String}
    {body : Option String} (h : headers.lookup "If-Match" = headers'.lookup "If-Match") :
    tryInto id ⟨method, uri, headers, body⟩ = tryInto id ⟨method, uri, headers', body⟩ := by
  rw [tryInto, tryInto, h]
  rfl

theorem readAnnounced_congr {headers' : Map String String}
    (h : headers.lookup "Content-Length" = headers'.lookup "Content-Length") :
    readAnnounced alloc headers = readAnnounced alloc headers' := by
  rw [readAnnounced, readAnnounced, h]

/-- What becomes of a stream depends on the two headers that are searched for only, besides the
request line and the bytes behind the blank line. -/
theorem handleRequest_congr {id : MessageID} {stream' : List UInt8}
    (hwords : requestWords stream = requestWords stream')
    (hafter : afterBlank stream = afterBlank stream')
    (htexts : (headerTexts stream = none ∧ headerTexts stream' = none) ∨
      ∃ texts texts', headerTexts stream = some texts ∧ headerTexts stream' = some texts' ∧
        ∀ key ∈ ["Content-Length", "If-Match"],
          (headersOf texts).lookup key = (headersOf texts').lookup key) :
    handleRequest alloc id stream = handleRequest alloc id stream' := by
  rw [handleRequest, handleRequest, run_fromStream, run_fromStream, hwords]
  rcases requestWords stream' with _ | _ | ⟨word, words⟩
  · rfl
  · rfl
  dsimp only
  cases Method.fromStr word with
  | error e => rfl
  | ok method =>
    cases words with
    | nil => rfl
    | cons uri words =>
      dsimp only
      rw [run_readRest, run_readRest]
      rcases htexts with ⟨hnone, hnone'⟩ | ⟨texts, texts', hsome, hsome', hlookup⟩
      · rw [hnone, hnone']
      · rw [hsome, hsome', ← hafter]
        dsimp only
        rw [readAnnounced_congr (hlookup "Content-Length" (by simp))]
        cases (readAnnounced alloc (headersOf texts')).run (afterBlank stream) with
        | error e => rfl
        | ok x =>
          have htry := @tryInto_congr method uri id _ _ x.1 (hlookup "If-Match" (by simp))
          simp only [Except.map, Except.ok_bind, htry]

end

/-! ## Panics -/

/-- The stream is turned into a message or refused. -/
def Returns (alloc : Allocator) (id : MessageID) (stream : List UInt8) : Prop :=
  (∃ message, handleRequest alloc id stream = .ok message) ∨
    ∃ e, handleRequest alloc id stream = .error (.error e)

/-- A request with a known method has a URI, and a length that it announces can be allocated. -/
def Bearable (alloc : Allocator) (stream : List UInt8) : Prop :=
  ∀ word words method, requestWords stream = some (word :: words) →
    Method.fromStr word = .ok method → words ≠ [] ∧
      ∀ texts cap, headerTexts stream = some texts → announced (headersOf texts) = some (.ok cap) →
        alloc.Provides cap

/-- Neither a panic nor an endless loop. -/
def Settles {α : Type} (x : Except RequestFailure α) : Prop :=
  (∃ a, x = .ok a) ∨ ∃ e, x = .error (.error e)

section

variable {α β : Type} {alloc : Allocator} {x : Except RequestFailure α} {stream : List UInt8}
  {id : MessageID}

theorem settles_ok {a : α} : Settles (.ok a) := .inl ⟨a, rfl⟩

theorem settles_error_iff {f : RequestFailure} :
    Settles (.error f : Except RequestFailure α) ↔ ∃ e, f = .error e := by
  constructor
  · rintro (⟨a, h⟩ | ⟨e, h⟩)
    · cases h
    · exact ⟨e, Except.error.inj h⟩
  · rintro ⟨e, rfl⟩
    exact .inr ⟨e, rfl⟩

theorem settles_error {e : IoError} : Settles (.error (.error e) : Except RequestFailure α) :=
  settles_error_iff.mpr ⟨e, rfl⟩

theorem not_settles_panicked {p : RequestPanic} :
    ¬ Settles (.error (.panicked p) : Except RequestFailure α) := by
  rw [settles_error_iff]
  rintro ⟨e, h⟩
  cases h

theorem settles_map_iff {f : α → β} : Settles (x.map f) ↔ Settles x := by
  cases x with
  | error e => exact settles_error_iff.trans settles_error_iff.symm
  | ok a => exact iff_of_true settles_ok settles_ok

theorem settles_handleRequest_iff :
    Settles (handleRequest alloc id stream) ↔ Settles ((fromStream alloc).run stream) := by
  rw [handleRequest]
  cases (fromStream alloc).run stream with
  | error e => exact settles_error_iff.trans settles_error_iff.symm
  | ok x =>
    obtain ⟨r, rest⟩ := x
    refine iff_of_true ?_ settles_ok
    rw [Except.ok_bind]
    dsimp only
    cases r.tryInto id with
    | ok message => exact settles_ok
    | error e => exact settles_error

theorem settles_readBody_iff {cap : ℕ} :
    Settles ((readBody alloc cap).run stream) ↔ alloc.Provides cap := by
  by_cases hcap : alloc.Provides cap
  · rw [run_readBody hcap]
    refine iff_of_true ?_ hcap
    cases utf8 (stream.take cap) with
    | none => exact settles_error
    | some body => exact settles_ok
  · obtain ⟨f, hf, hne⟩ := @run_readBody_unprovided alloc stream cap hcap
    rw [hf]
    refine iff_of_false (fun h => ?_) hcap
    obtain ⟨e, he⟩ := settles_error_iff.mp h
    exact hne e he

theorem settles_readAnnounced_iff {headers : Map String String} :
    Settles ((readAnnounced alloc headers).run stream) ↔
      ∀ cap, announced headers = some (.ok cap) → alloc.Provides cap := by
  rw [run_readAnnounced]
  cases announced headers with
  | none => exact iff_of_true settles_ok nofun
  | some r =>
    cases r with
    | error e => exact iff_of_true settles_error nofun
    | ok cap =>
      simp only [settles_map_iff, settles_readBody_iff, Option.some.injEq, Except.ok.injEq,
        forall_eq']

theorem settles_readRest_iff {method : Method} {uri : String} :
    Settles ((readRest alloc method uri).run (splitLine stream).2) ↔
      ∀ texts cap, headerTexts stream = some texts → announced (headersOf texts) = some (.ok cap) →
        alloc.Provides cap := by
  rw [run_readRest]
  cases headerTexts stream with
  | none => exact iff_of_true settles_error nofun
  | some texts =>
    simp only [settles_map_iff, settles_readAnnounced_iff, Option.some.injEq]
    constructor
    · rintro h texts cap rfl
      exact h cap
    · exact fun h cap => h texts cap rfl

theorem first_of_sniff (h : sniffMessageType stream = .httpRequest) :
    ∃ b bytes, stream = b :: bytes ∧ (b = ascii 'G' ∨ b = ascii 'P') := by
  cases stream with
  | nil => exact absurd h (by decide)
  | cons b bytes =>
    refine ⟨b, bytes, rfl, ?_⟩
    by_contra! hne
    have hprefix {method : List UInt8} {m : UInt8} (hm : m = ascii 'G' ∨ m = ascii 'P') :
        (m :: method).isPrefixOf (((b :: bytes).take 7).rightpad 7 0) = false := by
      have hm' : (m == b) = false := by
        rw [beq_eq_false_iff_ne]
        rintro rfl
        exact hm.elim hne.1 hne.2
      rw [List.take_succ_cons, List.rightpad, List.cons_append, List.isPrefixOf_cons_cons, hm',
        Bool.false_and]
    have hget : asBytes "GET" = [ascii 'G', ascii 'E', ascii 'T'] := by decide
    have hpost : asBytes "POST" = [ascii 'P', ascii 'O', ascii 'S', ascii 'T'] := by decide
    have hput : asBytes "PUT" = [ascii 'P', ascii 'U', ascii 'T'] := by decide
    rw [sniffMessageType, hget, hpost, hput, hprefix (.inl rfl), hprefix (.inr rfl),
      hprefix (.inr rfl)] at h
    simp only [Bool.or_false, Bool.false_eq_true, if_false] at h
    split at h
    · cases h
    · cases h

theorem splitWhitespace_ne_nil {c : Char} {cs : List Char} (hc : isWhitespace c = false) :
    splitWhitespace (c :: cs) ≠ [] := by
  intro h
  rw [splitWhitespace, List.splitOnP_cons_eq_if_modifyHead, if_neg (by simp [hc])] at h
  cases hsplit : cs.splitOnP isWhitespace with
  | nil => exact List.splitOnP_ne_nil _ _ hsplit
  | cons word words =>
    rw [hsplit] at h
    have hall := List.filter_eq_nil_iff.mp h (c :: word) List.mem_cons_self
    exact hall (by simp)

/-- A request line that begins with a method has a first word. -/
theorem requestWords_ne_nil (h : sniffMessageType stream = .httpRequest) :
    requestWords stream ≠ some [] := by
  obtain ⟨b, bytes, rfl, hb⟩ := first_of_sniff h
  have hascii : b ≤ 0x7F ∧ b ≠ ascii '\n' ∧ isWhitespace (Char.ofUInt8 b) = false := by
    rcases hb with rfl | rfl
    · decide
    · decide
  intro hwords
  obtain ⟨text, htext, hnil⟩ := Option.map_eq_some_iff.mp hwords
  rw [splitLine, if_neg hascii.2.1] at htext
  obtain ⟨cs, hcs, -⟩ := (Json.cons_eq_asBytes_iff hascii.1).mp (utf8_eq_some_iff.mp htext)
  rw [hcs, List.map_eq_nil_iff] at hnil
  exact splitWhitespace_ne_nil hascii.2.2 hnil

theorem settles_fromStream_iff : Settles ((fromStream alloc).run stream) ↔
    requestWords stream ≠ some [] ∧ Bearable alloc stream := by
  rw [run_fromStream, Bearable]
  cases hrequest : requestWords stream with
  | none => exact iff_of_true settles_error ⟨nofun, nofun⟩
  | some words =>
    cases words with
    | nil => exact iff_of_false not_settles_panicked fun h => h.1 rfl
    | cons word words =>
      simp only [Option.some.injEq, List.cons.injEq]
      cases hmethod : Method.fromStr word with
      | error e =>
        refine iff_of_true settles_error ⟨nofun, ?_⟩
        rintro word words method ⟨rfl, rfl⟩ hok
        rw [hmethod] at hok
        cases hok
      | ok method =>
        cases words with
        | nil =>
          refine iff_of_false not_settles_panicked fun h => ?_
          exact (h.2 word [] method ⟨rfl, rfl⟩ hmethod).1 rfl
        | cons uri words =>
          refine settles_readRest_iff.trans ⟨fun hcaps => ⟨nofun, ?_⟩, fun h => ?_⟩
          · rintro word words method ⟨rfl, rfl⟩ hok
            exact ⟨List.cons_ne_nil _ _, hcaps⟩
          · exact (h.2 word _ method ⟨rfl, rfl⟩ hmethod).2

/-- Reading a request panics if it has no URI or if the announced length cannot be allocated, and
only then. -/
theorem returns_iff (h : sniffMessageType stream = .httpRequest) :
    Returns alloc id stream ↔ Bearable alloc stream :=
  (settles_handleRequest_iff.trans settles_fromStream_iff).trans
    (and_iff_right (requestWords_ne_nil h))

theorem not_returns_of_panicked {p : RequestPanic}
    (h : handleRequest alloc id stream = .error (.panicked p)) : ¬ Returns alloc id stream := by
  change ¬ Settles (handleRequest alloc id stream)
  rw [h]
  exact not_settles_panicked

end

namespace Example

/-- Compare and set of a value of three bytes. -/
def put : List UInt8 :=
  asBytes "PUT /key/foo HTTP/1.1\r\nContent-Length: 3\r\nIf-Match: 1\r\n\r\nbar"

/-- There is memory for everything. -/
def ample : Allocator := fun _ => true

theorem returns_put : Bearable ample put := by
  have hput : handleRequest ample 1 put = .ok (.casRequest "foo" "1" "bar" 1) := by decide +kernel
  have hsniff : sniffMessageType put = .httpRequest := by decide
  exact (returns_iff hsniff).mp (.inl ⟨_, hput⟩)

/-- A request line without a URI, and a length that is no `isize`. -/
theorem not_returns : (sniffMessageType (asBytes "GET") = .httpRequest ∧
      ¬ Returns ample 1 (asBytes "GET")) ∧
    sniffMessageType (asBytes "GET /\nContent-Length: 9223372036854775808\n\n") = .httpRequest ∧
      ¬ Returns ample 1 (asBytes "GET /\nContent-Length: 9223372036854775808\n\n") := by
  have huri : handleRequest ample 1 (asBytes "GET") = .error (.panicked .noUri) := by
    decide +kernel
  have hlength : handleRequest ample 1
      (asBytes "GET /\nContent-Length: 9223372036854775808\n\n") =
      .error (.panicked .capacityOverflow) := by
    decide +kernel
  exact ⟨⟨by decide, not_returns_of_panicked huri⟩, by decide, not_returns_of_panicked hlength⟩

end Example

/-! ## Bodies -/

end Request

/-- The value that a request writes. -/
def ClientMessage.written {K V : Type} : ClientMessage K V → Option V
  | .writeRequest _ value _ => some value
  | .casRequest _ _ toValue _ => some toValue
  | _ => none

namespace Request

/-- A header line for a content of length `n`, whatever the case of its name and the whitespace
behind the colon. -/
def IsContentLength (n : ℕ) (text : String) : Prop :=
  ∃ name ows value, trim text.toList = name ++ ':' :: (ows ++ value) ∧
    name.map Char.toLower = "content-length".toList ∧ (∀ c ∈ ows, c = ' ' ∨ c = '\t') ∧
    Json.parseU64 (String.ofList value) = .ok n

def Announces (n : ℕ) (stream : List UInt8) : Prop :=
  ∃ texts, headerTexts stream = some texts ∧ ∃ text ∈ texts, IsContentLength n text

/-- The body of `r` is the `n` bytes behind the blank line, and so is what it writes. -/
structure BodyComplete (n : ℕ) (stream : List UInt8) (r : Request) : Prop where
  body : ∃ body, r.body = some body ∧ asBytes body = (afterBlank stream).take n
  enough : n ≤ (afterBlank stream).length
  written : ∀ id message value, r.tryInto id = .ok message → message.written = some value →
    asBytes value = (afterBlank stream).take n

/-- What holds of a content length `n` of the stream: a request that is returned has a complete
body, and if the stream ends before that, the result is an error. -/
structure BodySafe (alloc : Allocator) (n : ℕ) (stream : List UInt8) : Prop where
  complete : ∀ r rest, (fromStream alloc).run stream = .ok (r, rest) → BodyComplete n stream r
  cut : (afterBlank stream).length < n → ∃ e, (fromStream alloc).run stream = .error (.error e)

/-- The length of a body that is announced by the lines of the stream. -/
def Finds (n : ℕ) (stream : List UInt8) : Prop :=
  ∃ texts, headerTexts stream = some texts ∧ announced (headersOf texts) = some (.ok n)

/-- The request line has a known method and a URI, the header lines are texts, and if a body is
announced then its length can be allocated and its bytes, as far as there are any, are a text. -/
structure Readable (alloc : Allocator) (stream : List UInt8) : Prop where
  requestLine : ∃ word uri words method, requestWords stream = some (word :: uri :: words) ∧
    Method.fromStr word = .ok method
  body : ∃ texts, headerTexts stream = some texts ∧ (announced (headersOf texts) = none ∨
    ∃ cap text, announced (headersOf texts) = some (.ok cap) ∧ alloc.Provides cap ∧
      utf8 ((afterBlank stream).take cap) = some text)

/-- The content length `n` of the stream is the one that is found, if the stream is a request, with
so many bytes behind the blank line; and if there are fewer, nothing in the stream is unbearable. -/
structure Whole (alloc : Allocator) (n : ℕ) (stream : List UInt8) : Prop where
  found : Readable alloc stream → Finds n stream ∧ n ≤ (afterBlank stream).length
  bearable : (afterBlank stream).length < n →
    requestWords stream ≠ some [] ∧ Bearable alloc stream

section

variable {alloc : Allocator} {stream rest : List UInt8} {r : Request} {n : ℕ}

theorem readable_iff : Readable alloc stream ↔
    ∃ r rest, (fromStream alloc).run stream = .ok (r, rest) := by
  constructor
  · rintro ⟨⟨word, uri, words, method, hwords, hmethod⟩, texts, htexts, hbody⟩
    obtain ⟨body, hbody⟩ : ∃ body, BodyIs alloc (headersOf texts) (afterBlank stream) body := by
      rcases hbody with hnone | ⟨cap, text, hcap, hprovides, htext⟩
      · exact ⟨none, .absent hnone⟩
      · exact ⟨some text, .present hcap hprovides (utf8_eq_some_iff.mp htext)⟩
    exact ⟨_, ReadAs.run (r := ⟨method, uri, headersOf texts, body⟩)
      ⟨⟨word, words, hwords, hmethod⟩, ⟨texts, htexts, rfl⟩, hbody⟩⟩
  · rintro ⟨r, rest, hrun⟩
    obtain ⟨⟨word, words, hwords, hmethod⟩, ⟨texts, htexts, hheaders⟩, hbody⟩ := ReadAs.of_run hrun
    refine ⟨⟨word, _, words, _, hwords, hmethod⟩, texts, htexts, ?_⟩
    rw [hheaders] at hbody
    generalize r.body = body at hbody
    cases hbody with
    | absent hnone => exact .inl hnone
    | present hcap hprovides htake =>
      exact .inr ⟨_, _, hcap, hprovides, utf8_eq_some_iff.mpr htake⟩

theorem tryInto_written {id : MessageID} {message : ClientMessage String String} {value : String}
    (h : r.tryInto id = .ok message) (hvalue : message.written = some value) :
    r.body = some value := by
  have hbody {body : String} (h : r.requiredBody = .ok body) : r.body = some body := by
    unfold requiredBody at h
    split at h
    · next hsome => exact hsome.trans (congrArg some (Except.ok.inj h))
    · cases h
  unfold tryInto at h
  split at h
  · simp only [Except.bind_eq_ok_iff, Except.pure_eq_ok_iff] at h
    obtain ⟨key, -, rfl⟩ := h
    cases hvalue
  · split at h
    · simp only [Except.bind_eq_ok_iff, Except.pure_eq_ok_iff] at h
      obtain ⟨key, -, body, hrequired, rfl⟩ := h
      obtain rfl := Option.some.inj hvalue
      exact hbody hrequired
    · simp only [Except.bind_eq_ok_iff, Except.pure_eq_ok_iff] at h
      obtain ⟨key, -, body, hrequired, rfl⟩ := h
      obtain rfl := Option.some.inj hvalue
      exact hbody hrequired

/-- The header that is searched for is one of the lines for a content length. -/
theorem Finds.announces (h : Finds n stream) : Announces n stream := by
  obtain ⟨texts, htexts, hannounced⟩ := h
  obtain ⟨value, hlookup, hparse⟩ := Option.map_eq_some_iff.mp hannounced
  obtain ⟨text, hmem, htext⟩ := exists_isHeader hlookup
  refine ⟨texts, htexts, text, hmem, _, [' '], value.toList, eq_of_splitOnce htext, by decide,
    by simp, ?_⟩
  rwa [String.ofList_toList]

theorem ReadAs.finds_iff (h : ReadAs alloc stream r) :
    Finds n stream ↔ announced r.headers = some (.ok n) := by
  obtain ⟨texts, htexts, hheaders⟩ := h.headers
  rw [hheaders]
  constructor
  · rintro ⟨texts', htexts', hn⟩
    rwa [Option.some.inj (htexts.symm.trans htexts')]
  · exact fun hn => ⟨texts, htexts, hn⟩

/-- If all content lengths have a complete body, they are the one that is found. -/
theorem ReadAs.finds (h : ReadAs alloc stream r)
    (hall : ∀ n, Announces n stream → BodyComplete n stream r) (hn : Announces n stream) :
    Finds n stream := by
  obtain ⟨⟨body, hsome, htake⟩, hle, -⟩ := hall n hn
  have hbody := h.body
  rw [hsome] at hbody
  cases hbody with
  | @present cap _ hcap _ htake' =>
    have hfinds := h.finds_iff.mpr hcap
    have hcaple := (hall cap hfinds.announces).enough
    have hlen := congrArg List.length (htake'.trans htake)
    rw [List.length_take_of_le hcaple, List.length_take_of_le hle] at hlen
    exact hlen ▸ hfinds

/-- The body of the length that is found is complete if there are so many bytes. -/
theorem ReadAs.bodyComplete (h : ReadAs alloc stream r) (hfinds : Finds n stream)
    (hle : n ≤ (afterBlank stream).length) : BodyComplete n stream r := by
  have hcap := h.finds_iff.mp hfinds
  have hbody := h.body
  cases hb : r.body with
  | none =>
    rw [hb] at hbody
    cases hbody with
    | absent hnone =>
      rw [hnone] at hcap
      cases hcap
  | some body =>
    rw [hb] at hbody
    cases hbody with
    | present hcap' _ htake =>
      obtain rfl := Except.ok.inj (Option.some.inj (hcap.symm.trans hcap'))
      refine ⟨⟨body, hb, htake.symm⟩, hle, fun id message value hm hvalue => ?_⟩
      obtain rfl := Option.some.inj (hb.symm.trans (tryInto_written hm hvalue))
      exact htake.symm

/-- The bodies of a stream are complete, and its end is noticed, if all content lengths that it has
are what the headers are searched for and it has so many bytes, as long as it is a request; and if
it ends early it must not make reading it panic. -/
theorem bodyComplete_iff : (∀ n, Announces n stream → BodySafe alloc n stream) ↔
    ∀ n, Announces n stream → Whole alloc n stream := by
  constructor
  · intro hall n hn
    refine ⟨fun hreadable => ?_, fun hlt => ?_⟩
    · obtain ⟨r, rest, hrun⟩ := readable_iff.mp hreadable
      have hcomplete := fun n hn => (hall n hn).complete r rest hrun
      exact ⟨(ReadAs.of_run hrun).finds hcomplete hn, (hcomplete n hn).enough⟩
    · exact settles_fromStream_iff.mp (.inr ((hall n hn).cut hlt))
  · intro hall n hn
    refine ⟨fun r rest hrun => ?_, fun hlt => ?_⟩
    · obtain ⟨hfinds, hle⟩ := (hall n hn).found (readable_iff.mpr ⟨r, rest, hrun⟩)
      exact (ReadAs.of_run hrun).bodyComplete hfinds hle
    · rcases settles_fromStream_iff.mpr ((hall n hn).bearable hlt) with ⟨⟨r, rest⟩, hrun⟩ | herror
      · have hle := ((hall n hn).found (readable_iff.mpr ⟨r, rest, hrun⟩)).2
        exact absurd hlt (not_lt.mpr hle)
      · exact herror

theorem append_colon_inj {name name' field field' : List Char} (hname : ':' ∉ name)
    (hname' : ':' ∉ name') (h : name ++ ':' :: field = name' ++ ':' :: field') :
    name = name' ∧ field = field' := by
  induction name generalizing name' with
  | nil =>
    cases name' with
    | nil => exact ⟨rfl, (List.cons.inj h).2⟩
    | cons c name' => exact absurd ((List.cons.inj h).1 ▸ List.mem_cons_self) hname'
  | cons c name ih =>
    cases name' with
    | nil => exact absurd ((List.cons.inj h).1 ▸ List.mem_cons_self) hname
    | cons c' name' =>
      obtain ⟨rfl, htail⟩ := List.cons.inj h
      obtain ⟨rfl, rfl⟩ := ih (fun hmem => hname (List.mem_cons_of_mem _ hmem))
        (fun hmem => hname' (List.mem_cons_of_mem _ hmem)) htail
      exact ⟨rfl, rfl⟩

/-- The colon behind the name tells where the value begins. -/
theorem IsContentLength.parse {text : String} {name field : List Char}
    (h : IsContentLength n text) (htrim : trim text.toList = name ++ ':' :: field)
    (hname : ':' ∉ name) : name.map Char.toLower = "content-length".toList ∧
      ∃ ows value, field = ows ++ value ∧ (∀ c ∈ ows, c = ' ' ∨ c = '\t') ∧
        Json.parseU64 (String.ofList value) = .ok n := by
  obtain ⟨name', ows, value, htrim', hlower, hows, hparse⟩ := h
  have hname' : ':' ∉ name' := by
    intro hmem
    have hcolon : ':' ∈ name'.map Char.toLower := List.mem_map.mpr ⟨':', hmem, rfl⟩
    rw [hlower] at hcolon
    exact absurd hcolon (by decide)
  obtain ⟨rfl, hfield⟩ := append_colon_inj hname hname' (htrim.symm.trans htrim')
  exact ⟨hlower, ows, value, hfield, hows, hparse⟩

end

namespace Example

theorem headerTexts_put :
    headerTexts put = some ["Content-Length: 3\r\n", "If-Match: 1\r\n"] := by
  decide +kernel

theorem announces_put {n : ℕ} (h : Announces n put) : n = 3 := by
  obtain ⟨texts, htexts, text, hmem, htext⟩ := h
  obtain rfl := Option.some.inj (headerTexts_put.symm.trans htexts)
  simp only [List.mem_cons, List.not_mem_nil, or_false] at hmem
  rcases hmem with rfl | rfl
  · have htrim : trim "Content-Length: 3\r\n".toList =
        "Content-Length".toList ++ [':', ' ', '3'] := by
      decide
    obtain ⟨-, ows, value, hfield, hows, hparse⟩ := htext.parse htrim (by decide)
    cases ows with
    | nil =>
      obtain rfl : [' ', '3'] = value := hfield
      cases hparse
    | cons c ows =>
      obtain ⟨-, hfield⟩ := List.cons.inj hfield
      cases ows with
      | nil =>
        obtain rfl : ['3'] = value := hfield
        exact Except.ok.inj hparse.symm
      | cons c' ows =>
        obtain ⟨rfl, -⟩ := List.cons.inj hfield
        exact absurd (hows '3' (by simp)) (by decide)
  · have htrim : trim "If-Match: 1\r\n".toList = "If-Match".toList ++ [':', ' ', '1'] := by decide
    obtain ⟨hlower, -⟩ := htext.parse htrim (by decide)
    exact absurd hlower (by decide)

theorem finds_put : Finds 3 put := ⟨_, headerTexts_put, by decide +kernel⟩

/-- The whole stream is read as it should be. -/
theorem bodyComplete_put : Announces 3 put ∧
    (∃ r rest, (fromStream ample).run put = .ok (r, rest) ∧ BodyComplete 3 put r) ∧
    ∀ n, Announces n put → BodySafe ample n put := by
  have hput : handleRequest ample 1 put = .ok (.casRequest "foo" "1" "bar" 1) := by decide +kernel
  have hlen : (afterBlank put).length = 3 := by decide +kernel
  have hsafe : ∀ n, Announces n put → BodySafe ample n put := by
    refine bodyComplete_iff.mpr fun n hn => ?_
    obtain rfl := announces_put hn
    exact ⟨fun _ => ⟨finds_put, hlen.ge⟩, fun hlt => absurd hlt (by omega)⟩
  obtain ⟨r, hread, -⟩ := handleRequest_eq_ok_iff.mp hput
  obtain ⟨rest, hrun⟩ := hread.run
  exact ⟨finds_put.announces, ⟨r, rest, hrun, hread.bodyComplete finds_put hlen.ge⟩, hsafe⟩

/-- A length that is no `isize` is announced, and the stream ends after two bytes. -/
def oversized : List UInt8 :=
  asBytes "PUT /key/foo HTTP/1.1\r\nContent-Length: 9223372036854775808\r\n\r\nba"

theorem finds_oversized : Finds 9223372036854775808 oversized :=
  ⟨["Content-Length: 9223372036854775808\r\n"], by decide +kernel, by decide +kernel⟩

/-- A body of three bytes is announced, and the stream ends after two: they are taken for the body.
With a length that is no `isize` the early end is a panic. -/
theorem not_bodyComplete_cut : (∃ r rest, (fromStream ample).run put.dropLast = .ok (r, rest) ∧
      r.tryInto 1 = .ok (.casRequest "foo" "1" "ba" 1) ∧
      Announces 3 put.dropLast ∧ ¬ BodyComplete 3 put.dropLast r) ∧
    (Announces 3 put.dropLast ∧ ¬ BodySafe ample 3 put.dropLast) ∧
    (Announces 9223372036854775808 oversized ∧ ¬ BodySafe ample 9223372036854775808 oversized) := by
  have hcut : handleRequest ample 1 put.dropLast = .ok (.casRequest "foo" "1" "ba" 1) := by
    decide +kernel
  have hfinds : Finds 3 put.dropLast :=
    ⟨["Content-Length: 3\r\n", "If-Match: 1\r\n"], by decide +kernel, by decide +kernel⟩
  have hshort : ¬ 3 ≤ (afterBlank put.dropLast).length := by decide +kernel
  obtain ⟨r, hread, hm⟩ := handleRequest_eq_ok_iff.mp hcut
  obtain ⟨rest, hrun⟩ := hread.run
  refine ⟨⟨r, rest, hrun, hm, hfinds.announces, fun h => hshort h.enough⟩,
    ⟨hfinds.announces, fun h => hshort (h.complete r rest hrun).enough⟩,
    finds_oversized.announces, fun h => ?_⟩
  obtain ⟨e, he⟩ := h.cut (by decide +kernel)
  have hpanic : ((fromStream ample).run oversized).map Prod.snd =
      .error (.panicked .capacityOverflow) := by
    decide +kernel
  rw [he] at hpanic
  cases hpanic

end Example

end Request

end Miniraft
