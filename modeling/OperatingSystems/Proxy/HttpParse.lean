import OperatingSystems.Proxy.Requests

/-!
# The parser of the request line

`http_request_parse` peeks at a connection and reads the method, the path and the delay out of what has
arrived.  A pointer into `read_buffer` is the initialised part of the buffer from there on, so that a
step behind its end is an error.  A store behind the end of the string `request->delay` is counted in
`overrun`.

* **`advance`** — the loop that moves `read_end`; `parseLine` — the request line; `scanDelay` — the
  `sscanf` of the delay.
* **`RequestLine`** — the grammar of a request line, and **`http_request_parse_accepts`**: the parser
  accepts just that.
-/

namespace OperatingSystems.Proxy

def LIBHTTP_REQUEST_MAX_SIZE : ℕ := 8192

/-- What `recv` has put into the buffer. -/
abbrev Peeked := { bytes : List Char // bytes.length ≤ LIBHTTP_REQUEST_MAX_SIZE }

structure HttpRequest where
  method : List Char
  path : List Char
  delay : List Char
deriving DecidableEq, Repr

/-- An access outside `read_buffer`. -/
inductive ParseFault
  | bufferWrite (i : ℤ)
  | bufferRead
deriving DecidableEq, Repr

/-! ### The request line -/

/-- `*read_end` -/
def deref : List Char → Except ParseFault Char
  | [] => .error .bufferRead
  | c :: _ => .ok c

/-- `while (keep(*read_end)) read_end++`: what it passes, and where it stops. -/
def advance (keep : Char → Bool) : List Char → Except ParseFault (List Char × List Char)
  | [] => .error .bufferRead
  | c :: rest =>
    if keep c then do
      let (passed, read_end) ← advance keep rest
      return (c :: passed, read_end)
    else .ok ([], c :: rest)

/-- A character of a method. -/
def isUpper (c : Char) : Bool := 'A' ≤ c && c ≤ 'Z'

/-- The body of the `do` loop: the method and the path; `none` is a `break`. -/
def parseLine (read_buffer : List Char) : Except ParseFault (Option (List Char × List Char)) := do
  let (method, read_end) ← advance isUpper read_buffer
  if method.length = 0 then return none
  let c ← deref read_end
  if c ≠ ' ' then return none
  let (path, read_end) ← advance (fun c => c ≠ '\x00' && c ≠ ' ' && c ≠ '\n') read_end.tail
  if path.length = 0 then return none
  let (_, read_end) ← advance (fun c => c ≠ '\x00' && c ≠ '\n') read_end
  let c ← deref read_end
  if c ≠ '\n' then return none
  return some (method, path)

/-! ### The delay -/

/-- The C string at the beginning of the bytes. -/
def cstr (bytes : List Char) : List Char := bytes.takeWhile (· ≠ '\x00')

/-- `"Delay:"` -/
def delayWord : List Char := ['D', 'e', 'l', 'a', 'y', ':']

/-- `sscanf(text, "%*[^D]Delay: %d", &request_delay)`; `none` is any result but `1`. -/
def scanDelay (text : List Char) : Option ℤ :=
  if text.takeWhile (· ≠ 'D') = [] then none
  else
    match delayWord.isPrefixOf? (text.dropWhile (· ≠ 'D')) with
    | some rest => scanInt rest
    | none => none

/-- What `%d` prints. -/
def decimal (v : ℤ) : List Char :=
  if v < 0 then '-' :: Nat.toDigits 10 v.natAbs else Nat.toDigits 10 v.natAbs

/-- The size of `request->delay`. -/
def delaySize : ℕ := 11

/-- The string `request->delay`. -/
def delayText (text : List Char) : List Char :=
  match scanDelay text with
  | some request_delay => decimal request_delay
  | none => ['0']

/-- The bytes that `sprintf` stores behind the end of `request->delay`. -/
def delayOverrun (text : List Char) : ℕ :=
  match scanDelay text with
  | some request_delay => (decimal request_delay).length + 1 - delaySize
  | none => 0

/-! ### The parser -/

structure Parsed where
  /-- `none` is a null pointer. -/
  request : Option HttpRequest
  overrun : ℕ
deriving DecidableEq, Repr

/-- `recv`'s result. -/
def bytesRead : Option Peeked → ℤ
  | none => -1
  | some bytes => bytes.1.length

/-- The bytes of the buffer that are known after `recv`. -/
def arrivedBytes : Option Peeked → List Char
  | none => []
  | some bytes => bytes.1

/-- **`http_request_parse`**, where `none` is a `recv` that fails. -/
def http_request_parse (received : Option Peeked) : Except ParseFault Parsed :=
  let bytes_read := bytesRead received
  if bytes_read < 0 ∨ LIBHTTP_REQUEST_MAX_SIZE < bytes_read then .error (.bufferWrite bytes_read)
  else do
    let read_buffer := arrivedBytes received ++ ['\x00']
    let text := cstr read_buffer
    let line ← parseLine read_buffer
    return {
      request := line.map fun (method, path) => ⟨method, path, delayText text⟩
      overrun := delayOverrun text }

example : http_request_parse (some ⟨"GET /3/a HTTP\nDelay: 7\n".toList, by decide⟩) =
    .ok ⟨some ⟨"GET".toList, "/3/a".toList, "7".toList⟩, 0⟩ := by decide +kernel

/-! ### What the loops pass -/

/-- A character of a path. -/
def isPathChar (c : Char) : Bool := c ≠ ' ' && c ≠ '\n'

/-- **A loop that stops at the end of the text** passes the longest run of its characters. -/
theorem advance_text {keep : Char → Bool} (hnul : keep '\x00' = false) (text junk : List Char) :
    advance keep (text ++ '\x00' :: junk) =
      .ok (text.takeWhile keep, text.dropWhile keep ++ '\x00' :: junk) := by
  induction text with
  | nil => simp [advance, hnul]
  | cons c text ih =>
    rw [List.cons_append, advance, ih, List.takeWhile_cons, List.dropWhile_cons]
    cases keep c <;> rfl

theorem deref_text (text junk : List Char) :
    deref (text ++ '\x00' :: junk) = .ok (text.headD '\x00') := by
  cases text <;> rfl

theorem takeWhile_congr {p q : Char → Bool} {text : List Char} (h : ∀ c ∈ text, p c = q c) :
    text.takeWhile p = text.takeWhile q := by
  induction text with
  | nil => rfl
  | cons c text ih =>
    rw [List.takeWhile_cons, List.takeWhile_cons, h c List.mem_cons_self,
      ih fun d hd => h d (List.mem_cons_of_mem c hd)]

theorem dropWhile_congr {p q : Char → Bool} {text : List Char} (h : ∀ c ∈ text, p c = q c) :
    text.dropWhile p = text.dropWhile q := by
  induction text with
  | nil => rfl
  | cons c text ih =>
    rw [List.dropWhile_cons, List.dropWhile_cons, h c List.mem_cons_self,
      ih fun d hd => h d (List.mem_cons_of_mem c hd)]

/-- The method and the path of a text without a null character. -/
def requestLine (text : List Char) : Option (List Char × List Char) :=
  let rest := text.dropWhile isUpper
  if text.takeWhile isUpper = [] then none
  else if rest.headD '\x00' ≠ ' ' then none
  else if rest.tail.takeWhile isPathChar = [] then none
  else if '\n' ∉ rest.tail.dropWhile isPathChar then none
  else some (text.takeWhile isUpper, rest.tail.takeWhile isPathChar)

theorem headD_dropWhile_eq_iff (text : List Char) :
    (text.dropWhile fun c => c ≠ '\n').headD '\x00' = '\n' ↔ '\n' ∈ text := by
  induction text with
  | nil => simp
  | cons c text ih =>
    rw [List.dropWhile_cons]
    by_cases hc : c = '\n'
    · simp [hc]
    · rw [if_pos (by simpa using hc), ih, List.mem_cons]
      exact ⟨.inr, fun h => h.resolve_left fun h => hc h.symm⟩

/-- **The loops on a text**: no step leaves the buffer. -/
theorem parseLine_text {text : List Char} (hnul : '\x00' ∉ text) (junk : List Char) :
    parseLine (text ++ '\x00' :: junk) = .ok (requestLine text) := by
  have hpath : ∀ t : List Char, '\x00' ∉ t → ∀ c ∈ t,
      (decide (c ≠ '\x00') && decide (c ≠ ' ') && decide (c ≠ '\n')) = isPathChar c := by
    intro t ht c hc
    have : c ≠ '\x00' := fun h => ht (h ▸ hc)
    simp [isPathChar, this]
  have hline : ∀ t : List Char, '\x00' ∉ t → ∀ c ∈ t,
      (decide (c ≠ '\x00') && decide (c ≠ '\n')) = decide (c ≠ '\n') := by
    intro t ht c hc
    have : c ≠ '\x00' := fun h => ht (h ▸ hc)
    simp [this]
  have hsub : ∀ c ∈ text.dropWhile isUpper, c ∈ text := fun c hc =>
    (List.dropWhile_suffix isUpper).subset hc
  rw [parseLine, advance_text (by decide)]
  show (if (text.takeWhile isUpper).length = 0 then _ else _) = _
  rw [requestLine]
  generalize text.dropWhile isUpper = rest at hsub ⊢
  generalize text.takeWhile isUpper = method
  by_cases hmethod : method = []
  · rw [if_pos (by rw [hmethod]; rfl), if_pos hmethod]
    rfl
  rw [if_neg (fun h => hmethod (List.length_eq_zero_iff.mp h)), if_neg hmethod]
  show (deref (rest ++ '\x00' :: junk) >>= _) = _
  rw [deref_text]
  show (if rest.headD '\x00' ≠ ' ' then _ else _) = _
  by_cases hc : rest.headD '\x00' = ' '
  swap
  · rw [if_pos hc, if_pos hc]
    rfl
  rw [if_neg (not_not.mpr hc), if_neg (not_not.mpr hc)]
  have htail : (rest ++ '\x00' :: junk).tail = rest.tail ++ '\x00' :: junk := by
    cases rest with
    | nil => exact absurd hc (by decide)
    | cons c rest => rfl
  have htext : '\x00' ∉ rest.tail := fun h => hnul (hsub _ (List.mem_of_mem_tail h))
  rw [htail]
  generalize rest.tail = rest at htext ⊢
  show (advance _ (rest ++ '\x00' :: junk) >>= _) = _
  rw [advance_text (by decide), takeWhile_congr (hpath rest htext),
    dropWhile_congr (hpath rest htext)]
  have hleft : '\x00' ∉ rest.dropWhile isPathChar := fun h =>
    htext ((List.dropWhile_suffix isPathChar).subset h)
  generalize rest.dropWhile isPathChar = left at hleft ⊢
  generalize rest.takeWhile isPathChar = path
  show (if path.length = 0 then _ else _) = _
  by_cases hnonempty : path = []
  · rw [if_pos (by rw [hnonempty]; rfl), if_pos hnonempty]
    rfl
  rw [if_neg (fun h => hnonempty (List.length_eq_zero_iff.mp h)), if_neg hnonempty]
  show (advance _ (left ++ '\x00' :: junk) >>= _) = _
  rw [advance_text (by decide), dropWhile_congr (hline _ hleft)]
  show (deref (left.dropWhile _ ++ '\x00' :: junk) >>= _) = _
  rw [deref_text]
  show (if _ ≠ '\n' then _ else _) = _
  by_cases hnl : '\n' ∈ left
  · rw [if_neg (not_not.mpr ((headD_dropWhile_eq_iff _).mpr hnl)), if_neg (not_not.mpr hnl)]
    rfl
  · rw [if_pos (mt (headD_dropWhile_eq_iff _).mp hnl), if_pos hnl]
    rfl

/-! ### The grammar -/

/-- **The request line of a text**: `M ' ' P R '\n'` at its beginning. -/
structure RequestLine (text M P R : List Char) : Prop where
  split : ∃ rest, text = M ++ ' ' :: (P ++ (R ++ '\n' :: rest))
  method_ne : M ≠ []
  method : ∀ c ∈ M, 'A' ≤ c ∧ c ≤ 'Z'
  path_ne : P ≠ []
  path : ∀ c ∈ P, c ≠ ' ' ∧ c ≠ '\n'
  version : '\n' ∉ R ∧ (R = [] ∨ R.head? = some ' ')

theorem takeWhile_split {p : Char → Bool} {l : List Char} {c : Char}
    (hl : ∀ d ∈ l, p d = true) (hc : p c = false) (rest : List Char) :
    (l ++ c :: rest).takeWhile p = l ∧ (l ++ c :: rest).dropWhile p = c :: rest := by
  constructor
  · rw [List.takeWhile_append_of_pos hl, List.takeWhile_cons, hc]
    exact List.append_nil l
  · rw [List.dropWhile_append_of_pos hl, List.dropWhile_cons, hc]
    rfl

/-- The part behind the path begins with a character that ends the path. -/
theorem RequestLine.behind {R : List Char} (h : '\n' ∉ R ∧ (R = [] ∨ R.head? = some ' '))
    (rest : List Char) :
    ∃ c tail, R ++ '\n' :: rest = c :: tail ∧ isPathChar c = false := by
  rcases h.2 with rfl | hR
  · exact ⟨'\n', rest, rfl, rfl⟩
  · obtain ⟨R, rfl⟩ := List.head?_eq_some_iff.mp hR
    exact ⟨' ', R ++ '\n' :: rest, rfl, rfl⟩

/-- The scans find the parts of a request line. -/
theorem RequestLine.scans {text M P R : List Char} (h : RequestLine text M P R) :
    text.takeWhile isUpper = M ∧ (text.dropWhile isUpper).headD '\x00' = ' ' ∧
      (text.dropWhile isUpper).tail.takeWhile isPathChar = P ∧
      ∃ rest, (text.dropWhile isUpper).tail.dropWhile isPathChar = R ++ '\n' :: rest := by
  obtain ⟨rest, rfl⟩ := h.split
  have hM : ∀ c ∈ M, isUpper c = true := fun c hc => by
    simpa [isUpper] using h.method c hc
  have hP : ∀ c ∈ P, isPathChar c = true := fun c hc => by
    simpa [isPathChar] using h.path c hc
  obtain ⟨hmethod, hrest⟩ := takeWhile_split hM (show isUpper ' ' = false by decide)
    (P ++ (R ++ '\n' :: rest))
  obtain ⟨c, tail, hbehind, hc⟩ := RequestLine.behind h.version rest
  obtain ⟨hpath, hleft⟩ := takeWhile_split hP hc tail
  rw [hrest, hmethod]
  show M = M ∧ ' ' = ' ' ∧ (P ++ (R ++ '\n' :: rest)).takeWhile isPathChar = P ∧
    ∃ rest', (P ++ (R ++ '\n' :: rest)).dropWhile isPathChar = R ++ '\n' :: rest'
  rw [hbehind, hpath, hleft]
  exact ⟨rfl, rfl, rfl, rest, hbehind.symm⟩

theorem split_at_newline {R R' rest rest' : List Char} (hR : '\n' ∉ R) (hR' : '\n' ∉ R')
    (h : R ++ '\n' :: rest = R' ++ '\n' :: rest') : R = R' := by
  have hkeep : ∀ {l : List Char}, '\n' ∉ l → ∀ c ∈ l, decide (c ≠ '\n') = true := fun hl c hc => by
    simpa using fun h : c = '\n' => hl (h ▸ hc)
  have h₁ := (takeWhile_split (hkeep hR) (decide_eq_false (not_not.mpr rfl)) rest).1
  have h₂ := (takeWhile_split (hkeep hR') (decide_eq_false (not_not.mpr rfl)) rest').1
  rw [← h₁, h, h₂]

/-- **The split of a request line is unique.** -/
theorem RequestLine.unique {text M P R M' P' R' : List Char} (h : RequestLine text M P R)
    (h' : RequestLine text M' P' R') : M = M' ∧ P = P' ∧ R = R' := by
  obtain ⟨hM, -, hP, rest, hleft⟩ := h.scans
  obtain ⟨hM', -, hP', rest', hleft'⟩ := h'.scans
  refine ⟨hM.symm.trans hM', hP.symm.trans hP', ?_⟩
  exact split_at_newline h.version.1 h'.version.1 (hleft.symm.trans hleft')

/-- What is left after a path, up to the end of the line. -/
theorem exists_version {left : List Char} (hnl : '\n' ∈ left)
    (hhead : ∀ c tail, left = c :: tail → isPathChar c = false) :
    ∃ R rest, left = R ++ '\n' :: rest ∧ '\n' ∉ R ∧ (R = [] ∨ R.head? = some ' ') := by
  obtain ⟨R, rest, rfl, hR⟩ := List.eq_append_cons_of_mem hnl
  refine ⟨R, rest, rfl, hR, ?_⟩
  cases R with
  | nil => exact .inl rfl
  | cons c R =>
    have hc := hhead c _ rfl
    have hne : c ≠ '\n' := fun h => hR (h ▸ List.mem_cons_self)
    right
    simpa [isPathChar, hne] using hc

/-- **The scans accept the grammar.** -/
theorem requestLine_eq_some_iff {text M P : List Char} :
    requestLine text = some (M, P) ↔ ∃ R, RequestLine text M P R := by
  constructor
  · intro h
    have hsplit := List.takeWhile_append_dropWhile (p := isUpper) (l := text)
    have hupper : ∀ c ∈ text.takeWhile isUpper, isUpper c = true := fun c hc =>
      List.mem_takeWhile_imp hc
    rw [requestLine] at h
    generalize text.takeWhile isUpper = method at h hsplit hupper
    generalize text.dropWhile isUpper = rest at h hsplit
    have hrest := List.takeWhile_append_dropWhile (p := isPathChar) (l := rest.tail)
    have hchars : ∀ c ∈ rest.tail.takeWhile isPathChar, isPathChar c = true := fun c hc =>
      List.mem_takeWhile_imp hc
    have hhead : ∀ c tail, rest.tail.dropWhile isPathChar = c :: tail → isPathChar c = false := by
      intro c tail hc
      have := List.head?_dropWhile_not isPathChar rest.tail
      rwa [hc] at this
    generalize rest.tail.takeWhile isPathChar = path at h hrest hchars
    generalize rest.tail.dropWhile isPathChar = left at h hrest hhead
    -- none of the four ways to fail is taken
    split at h; · cases h
    rename_i hmethod
    split at h; · cases h
    rename_i hspace
    split at h; · cases h
    rename_i hpath
    split at h; · cases h
    rename_i hnl
    obtain ⟨rfl, rfl⟩ := Prod.mk.inj (Option.some.inj h)
    obtain ⟨R, rest', rfl, hversion⟩ := exists_version (not_not.mp hnl) hhead
    have hcons : rest = ' ' :: rest.tail := by
      cases rest with
      | nil => exact absurd hspace (by decide)
      | cons c rest => rw [show c = ' ' from not_not.mp hspace]; rfl
    refine ⟨R, ⟨rest', ?_⟩, hmethod, ?_, hpath, ?_, hversion⟩
    · rw [hrest, ← hcons, hsplit]
    · intro c hc
      simpa [isUpper] using hupper c hc
    · intro c hc
      simpa [isPathChar] using hchars c hc
  · rintro ⟨R, h⟩
    obtain ⟨hM, hspace, hP, rest, hleft⟩ := h.scans
    rw [requestLine, hM, if_neg h.method_ne, if_neg (not_not.mpr hspace), hP, if_neg h.path_ne, hleft,
      if_neg (not_not.mpr (by simp))]

/-! ### What the parser accepts -/

/-- The received text, up to its first null character. -/
def Peeked.text (received : Peeked) : List Char := cstr received.1

/-- The parser returns the request `r`. -/
def Returns (received : Peeked) (r : HttpRequest) : Prop :=
  ∃ overrun, http_request_parse (some received) = .ok ⟨some r, overrun⟩

theorem cstr_split (bytes : List Char) :
    '\x00' ∉ cstr bytes ∧ ∃ junk, bytes ++ ['\x00'] = cstr bytes ++ '\x00' :: junk := by
  induction bytes with
  | nil => exact ⟨by simp [cstr], [], rfl⟩
  | cons c bytes ih =>
    rw [cstr, List.takeWhile_cons]
    by_cases hc : c = '\x00'
    · rw [if_neg (by simpa using hc), hc]
      exact ⟨by simp, bytes ++ ['\x00'], rfl⟩
    · rw [if_pos (by simpa using hc)]
      obtain ⟨hnul, junk, hjunk⟩ := ih
      refine ⟨?_, junk, ?_⟩
      · rw [List.mem_cons, not_or]
        exact ⟨fun h => hc h.symm, hnul⟩
      · rw [List.cons_append, hjunk]
        rfl

theorem cstr_append_nul (bytes : List Char) : cstr (bytes ++ ['\x00']) = cstr bytes := by
  obtain ⟨hnul, junk, hjunk⟩ := cstr_split bytes
  rw [hjunk]
  apply (takeWhile_split ?_ (by decide) _).1
  intro c hc
  simpa using fun h : c = '\x00' => hnul (h ▸ hc)

/-- **The parser in terms of the text**: every access lies in the buffer. -/
theorem http_request_parse_eq (received : Peeked) :
    http_request_parse (some received) = .ok
      ⟨(requestLine received.text).map fun line => ⟨line.1, line.2, delayText received.text⟩,
        delayOverrun received.text⟩ := by
  obtain ⟨hnul, junk, hjunk⟩ := cstr_split received.1
  have hlen := received.2
  have hrange : ¬(bytesRead (some received) < 0 ∨
      LIBHTTP_REQUEST_MAX_SIZE < bytesRead (some received)) := by
    rw [bytesRead]
    omega
  rw [http_request_parse, if_neg hrange]
  show (parseLine (received.1 ++ ['\x00']) >>= fun line => Except.ok (Parsed.mk
    (line.map fun line => ⟨line.1, line.2, delayText (cstr (received.1 ++ ['\x00']))⟩)
    (delayOverrun (cstr (received.1 ++ ['\x00']))))) = _
  rw [cstr_append_nul, hjunk, parseLine_text hnul]
  rfl

theorem returns_iff {received : Peeked} {r : HttpRequest} :
    Returns received r ↔ requestLine received.text = some (r.method, r.path) ∧
      r.delay = delayText received.text := by
  rw [Returns, http_request_parse_eq]
  constructor
  · rintro ⟨overrun, h⟩
    obtain ⟨hrequest, -⟩ := Parsed.mk.inj (Except.ok.inj h)
    obtain ⟨line, hline, rfl⟩ := Option.map_eq_some_iff.mp hrequest
    exact ⟨hline, rfl⟩
  · rintro ⟨hline, hdelay⟩
    refine ⟨delayOverrun received.text, ?_⟩
    rw [hline, ← hdelay]
    rfl

/-- **The parser accepts exactly the request lines**, splits them uniquely, and returns the method and
the path of the split. -/
theorem http_request_parse_accepts (received : Peeked) :
    ((∃ r, Returns received r) ↔ ∃ M P R, RequestLine received.text M P R) ∧
      (∀ M P R M' P' R', RequestLine received.text M P R → RequestLine received.text M' P' R' →
        M = M' ∧ P = P' ∧ R = R') ∧
      ∀ r M P R, Returns received r → RequestLine received.text M P R → r.method = M ∧ r.path = P := by
  refine ⟨⟨?_, ?_⟩, fun M P R M' P' R' h h' => h.unique h', ?_⟩
  · rintro ⟨r, hr⟩
    exact ⟨r.method, r.path, requestLine_eq_some_iff.mp (returns_iff.mp hr).1⟩
  · rintro ⟨M, P, R, h⟩
    exact ⟨⟨M, P, delayText received.text⟩,
      returns_iff.mpr ⟨requestLine_eq_some_iff.mpr ⟨R, h⟩, rfl⟩⟩
  · intro r M P R hr h
    obtain ⟨R', h'⟩ := requestLine_eq_some_iff.mp (returns_iff.mp hr).1
    obtain ⟨hM, hP, -⟩ := h'.unique h
    exact ⟨hM, hP⟩

end OperatingSystems.Proxy
