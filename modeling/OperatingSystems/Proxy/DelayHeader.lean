import OperatingSystems.Proxy.HttpParse

/-!
# The delay of a request

The delay should be the number of the first header line `Delay: n`.  The parser looks for it with one
`sscanf` over the whole text, which goes to the first `D` there is.

* **`headerDelay`** — the number of the first such header line.
* **`NumberAt`** — what stands at the first `D` of a text; **`scanDelay_eq_some_iff`**: that is what
  `sscanf` reads.
* **`delay_right_iff`** — when the delay that is returned is the one of the header.
-/

namespace OperatingSystems.Proxy

/-! ### The header -/

/-- The value of a text of digits only. -/
def digitsOf (text : List Char) : Option ℤ :=
  if text ≠ [] ∧ text.all Char.isDigit then some (digitsValue text) else none

/-- The value of a decimal integer. -/
def decimalOf : List Char → Option ℤ
  | '-' :: digits => (digitsOf digits).map fun v => -v
  | '+' :: digits => digitsOf digits
  | digits => digitsOf digits

/-- A line without the `'\r'` at its end. -/
def dropCR (line : List Char) : List Char :=
  if line.getLast? = some '\r' then line.dropLast else line

/-- The number of a header line `Delay: n`, when it fits in an `int`. -/
def delayHeader (line : List Char) : Option ℤ :=
  match (delayWord ++ [' ']).isPrefixOf? (dropCR line) with
  | some num => (decimalOf num).filter fun n => -2 ^ 31 ≤ n ∧ n < 2 ^ 31
  | none => none

/-- The lines between the request line and the empty line that ends the header. -/
def headerLines (text : List Char) : List (List Char) :=
  ((text.dropWhile (· ≠ '\n')).tail.splitOn '\n').takeWhile fun line => dropCR line ≠ []

/-- **The delay of the header.** -/
def headerDelay (text : List Char) : Option ℤ :=
  (headerLines text).findSome? delayHeader

/-- The delay string is the number of the first header line `Delay: n`, or `0` without one. -/
def DelayRight (text delay : List Char) : Prop :=
  (∀ n, headerDelay text = some n → delay = decimal n) ∧
    (headerDelay text = none → delay = ['0'])

/-! ### What `sscanf` reads -/

/-- A number ends where no digit follows. -/
def Ends (rest : List Char) : Prop :=
  ∀ c, rest.head? = some c → c.isDigit = false

/-- **At the first `D` of the text**, which is not its first character, stands `Delay:` with a number
that is stored as `v`. -/
def NumberAt (text : List Char) (v : ℤ) : Prop :=
  ∃ front blanks num rest n, text = front ++ (delayWord ++ (blanks ++ (num ++ rest))) ∧
    front ≠ [] ∧ 'D' ∉ front ∧ (∀ c ∈ blanks, isSpace c = true) ∧ decimalOf num = some n ∧ Ends rest ∧
    v = storeInt n

theorem digitsOf_eq_some {digits : List Char} {n : ℤ} (h : digitsOf digits = some n) :
    digits ≠ [] ∧ (∀ c ∈ digits, c.isDigit = true) ∧ digitsValue digits = n := by
  unfold digitsOf at h
  split at h
  · rename_i hdigits
    exact ⟨hdigits.1, by simpa using hdigits.2, Option.some.inj h⟩
  · cases h

theorem scanDigits_eq_some_iff {text : List Char} {n : ℤ} :
    scanDigits text = some n ↔ ∃ digits rest, text = digits ++ rest ∧ digitsOf digits = some n ∧
      Ends rest := by
  constructor
  · intro h
    refine ⟨text.takeWhile Char.isDigit, text.dropWhile Char.isDigit,
      List.takeWhile_append_dropWhile.symm, ?_, ?_⟩
    · rw [scanDigits] at h
      rw [digitsOf]
      cases htake : text.takeWhile Char.isDigit with
      | nil =>
        rw [htake] at h
        cases h
      | cons c digits =>
        rw [htake] at h
        rw [if_pos, ← h]
        refine ⟨List.cons_ne_nil c digits, ?_⟩
        rw [← htake, List.all_eq_true]
        exact fun d hd => List.mem_takeWhile_imp hd
    · intro c hc
      have := List.head?_dropWhile_not Char.isDigit text
      rwa [hc] at this
  · rintro ⟨digits, rest, rfl, hdigits, hrest⟩
    obtain ⟨hne, hall, rfl⟩ := digitsOf_eq_some hdigits
    have htake : (digits ++ rest).takeWhile Char.isDigit = digits := by
      rw [List.takeWhile_append_of_pos hall]
      cases rest with
      | nil => exact List.append_nil digits
      | cons c rest => rw [List.takeWhile_cons, hrest c rfl]; exact List.append_nil digits
    rw [scanDigits, htake]
    cases digits with
    | nil => exact absurd rfl hne
    | cons c digits => rfl

theorem isSpace_of_isDigit {c : Char} (h : c.isDigit = true) :
    isSpace c = false ∧ c ≠ '-' ∧ c ≠ '+' ∧ c ≠ 'D' := by
  have hrange : 48 ≤ c.toNat ∧ c.toNat ≤ 57 := by
    simpa [Char.isDigit, UInt32.le_iff_toNat_le] using h
  have hne : ∀ d : Char, d.toNat < 48 ∨ 57 < d.toNat → c ≠ d := by
    rintro d hd rfl
    omega
  refine ⟨?_, hne _ (by decide), hne _ (by decide), hne _ (by decide)⟩
  have hblank : ¬(9 ≤ c.toNat ∧ c.toNat ≤ 13) := by omega
  simpa [isSpace, hne ' ' (by decide)] using hblank

/-- Digits are a decimal integer. -/
theorem decimalOf_of_digits {digits : List Char} {n : ℤ} (h : digitsOf digits = some n) :
    decimalOf digits = some n := by
  obtain ⟨-, hall, -⟩ := digitsOf_eq_some h
  unfold decimalOf
  split
  · exact absurd rfl (isSpace_of_isDigit (hall '-' List.mem_cons_self)).2.1
  · exact absurd rfl (isSpace_of_isDigit (hall '+' List.mem_cons_self)).2.2.1
  · exact h

/-- A decimal integer does not begin with white space. -/
theorem decimalOf_head {num : List Char} {n : ℤ} (h : decimalOf num = some n) :
    ∃ c tail, num = c :: tail ∧ isSpace c = false := by
  unfold decimalOf at h
  split at h
  · exact ⟨_, _, rfl, by decide⟩
  · exact ⟨_, _, rfl, by decide⟩
  · obtain ⟨hne, hall, -⟩ := digitsOf_eq_some h
    obtain ⟨c, tail, rfl⟩ := List.exists_cons_of_ne_nil hne
    exact ⟨c, tail, rfl, (isSpace_of_isDigit (hall c List.mem_cons_self)).1⟩

/-- `%d` behind the white space. -/
def scanSigned : List Char → Option ℤ
  | '-' :: rest => (scanDigits rest).map fun v => storeInt (-v)
  | '+' :: rest => (scanDigits rest).map storeInt
  | rest => (scanDigits rest).map storeInt

theorem scanInt_eq (text : List Char) : scanInt text = scanSigned (text.dropWhile isSpace) := rfl

theorem scanSigned_eq_some_iff {text : List Char} {v : ℤ} :
    scanSigned text = some v ↔
      ∃ num rest n, text = num ++ rest ∧ decimalOf num = some n ∧ Ends rest ∧ v = storeInt n := by
  constructor
  · intro h
    unfold scanSigned at h
    split at h
    · obtain ⟨n, hn, rfl⟩ := Option.map_eq_some_iff.mp h
      obtain ⟨digits, rest, rfl, hdigits, hrest⟩ := scanDigits_eq_some_iff.mp hn
      exact ⟨'-' :: digits, rest, -n, rfl, by rw [decimalOf, hdigits]; rfl, hrest, rfl⟩
    · obtain ⟨n, hn, rfl⟩ := Option.map_eq_some_iff.mp h
      obtain ⟨digits, rest, rfl, hdigits, hrest⟩ := scanDigits_eq_some_iff.mp hn
      exact ⟨'+' :: digits, rest, n, rfl, hdigits, hrest, rfl⟩
    · obtain ⟨n, hn, rfl⟩ := Option.map_eq_some_iff.mp h
      obtain ⟨digits, rest, rfl, hdigits, hrest⟩ := scanDigits_eq_some_iff.mp hn
      exact ⟨digits, rest, n, rfl, decimalOf_of_digits hdigits, hrest, rfl⟩
  · rintro ⟨num, rest, n, rfl, hnum, hrest, rfl⟩
    unfold decimalOf at hnum
    split at hnum
    · rename_i digits
      obtain ⟨m, hm, rfl⟩ := Option.map_eq_some_iff.mp hnum
      show (scanDigits (digits ++ rest)).map _ = _
      rw [scanDigits_eq_some_iff.mpr ⟨digits, rest, rfl, hm, hrest⟩]
      rfl
    · rename_i digits
      show (scanDigits (digits ++ rest)).map _ = _
      rw [scanDigits_eq_some_iff.mpr ⟨digits, rest, rfl, hnum, hrest⟩]
      rfl
    · have hscan := scanDigits_eq_some_iff.mpr ⟨num, rest, rfl, hnum, hrest⟩
      obtain ⟨hne, hall, -⟩ := digitsOf_eq_some hnum
      obtain ⟨c, tail, rfl⟩ := List.exists_cons_of_ne_nil hne
      obtain ⟨-, hminus, hplus, -⟩ := isSpace_of_isDigit (hall c List.mem_cons_self)
      rw [List.cons_append] at hscan ⊢
      unfold scanSigned
      split
      · rename_i h
        exact absurd (List.cons.inj h).1 hminus
      · rename_i h
        exact absurd (List.cons.inj h).1 hplus
      · rw [hscan]
        rfl

theorem scanInt_eq_some_iff {text : List Char} {v : ℤ} :
    scanInt text = some v ↔ ∃ blanks num rest n, text = blanks ++ (num ++ rest) ∧
      (∀ c ∈ blanks, isSpace c = true) ∧ decimalOf num = some n ∧ Ends rest ∧ v = storeInt n := by
  rw [scanInt_eq, scanSigned_eq_some_iff]
  constructor
  · rintro ⟨num, rest, n, htext, hnum, hrest, hv⟩
    refine ⟨text.takeWhile isSpace, num, rest, n, ?_, fun c hc => List.mem_takeWhile_imp hc, hnum,
      hrest, hv⟩
    rw [← htext, List.takeWhile_append_dropWhile]
  · rintro ⟨blanks, num, rest, n, rfl, hblanks, hnum, hrest, hv⟩
    obtain ⟨c, tail, rfl, hc⟩ := decimalOf_head hnum
    exact ⟨c :: tail, rest, n, (takeWhile_split hblanks hc _).2, hnum, hrest, hv⟩

/-- **`sscanf` reads the number at the first `D`.** -/
theorem scanDelay_eq_some_iff {text : List Char} {v : ℤ} :
    scanDelay text = some v ↔ NumberAt text v := by
  have hsplit := List.takeWhile_append_dropWhile (p := fun c => decide (c ≠ 'D')) (l := text)
  constructor
  · intro h
    rw [scanDelay] at h
    split at h
    · cases h
    · rename_i hfront
      split at h
      · rename_i rest hrest
        obtain ⟨blanks, num, rest', n, rfl, hnumber⟩ := scanInt_eq_some_iff.mp h
        refine ⟨_, blanks, num, rest', n, ?_, hfront, ?_, hnumber⟩
        · rw [List.isPrefixOf?_eq_some_iff_append_eq.mp hrest, hsplit]
        · intro hD
          simpa using List.mem_takeWhile_imp hD
      · cases h
  · rintro ⟨front, blanks, num, rest, n, rfl, hfront, hD, hnumber⟩
    have hkeep : ∀ c ∈ front, decide (c ≠ 'D') = true := fun c hc => by
      simpa using fun h : c = 'D' => hD (h ▸ hc)
    obtain ⟨htake, hdrop⟩ := takeWhile_split hkeep (decide_eq_false (not_not.mpr rfl))
      (['e', 'l', 'a', 'y', ':'] ++ (blanks ++ (num ++ rest)))
    have hword : delayWord ++ (blanks ++ (num ++ rest)) =
        'D' :: (['e', 'l', 'a', 'y', ':'] ++ (blanks ++ (num ++ rest))) := rfl
    rw [scanDelay, hword, htake, hdrop, if_neg hfront, ← hword,
      List.isPrefixOf?_eq_some_iff_append_eq.mpr rfl]
    exact scanInt_eq_some_iff.mpr ⟨blanks, num, rest, n, rfl, hnumber⟩

/-! ### The delay string -/

theorem storeInt_of_fits {n : ℤ} (hlo : -2 ^ 31 ≤ n) (hhi : n < 2 ^ 31) : storeInt n = n := by
  have hclamp : max (-2 ^ 63) (min (2 ^ 63 - 1) n) = n := by omega
  rw [storeInt, hclamp]
  apply Int.bmod_eq_of_le <;> omega

theorem toDigits_head (n : ℕ) : ∀ c ∈ Nat.toDigits 10 n, c ≠ '-' := fun _ hc =>
  (isSpace_of_isDigit (Nat.isDigit_of_mem_toDigits (by decide) (by decide) hc)).2.1

theorem toDigits_injective {m n : ℕ} (h : Nat.toDigits 10 m = Nat.toDigits 10 n) : m = n := by
  rw [← @Nat.ofDigitChars_ten_toDigits m, h, Nat.ofDigitChars_ten_toDigits]

/-- Two numbers are printed alike only if they are equal. -/
theorem decimal_injective {v w : ℤ} (h : decimal v = decimal w) : v = w := by
  have hsign : ∀ (a b : ℤ), '-' :: Nat.toDigits 10 a.natAbs ≠ Nat.toDigits 10 b.natAbs :=
    fun a b hab => toDigits_head b.natAbs '-' (hab ▸ List.mem_cons_self) rfl
  unfold decimal at h
  split at h <;> split at h
  · have := toDigits_injective (List.cons.inj h).2
    omega
  · exact absurd h (hsign v w)
  · exact absurd h.symm (hsign w v)
  · have := toDigits_injective h
    omega

theorem delayText_eq (text : List Char) : delayText text = decimal ((scanDelay text).getD 0) := by
  rw [delayText]
  cases scanDelay text <;> rfl

/-- The number of the header stands at the first `D`, or there is none and none stands there. -/
def DelayReadable (text : List Char) : Prop :=
  NumberAt text ((headerDelay text).getD 0) ∨
    (headerDelay text).getD 0 = 0 ∧ ∀ v, ¬NumberAt text v

theorem delayRight_iff {text : List Char} (v : ℤ) :
    DelayRight text (decimal v) ↔ v = (headerDelay text).getD 0 := by
  rw [DelayRight]
  cases headerDelay text with
  | none =>
    constructor
    · exact fun h => decimal_injective (h.2 rfl)
    · rintro rfl
      exact ⟨fun n hn => (nomatch hn), fun _ => rfl⟩
  | some m =>
    constructor
    · exact fun h => decimal_injective (h.1 m rfl)
    · rintro rfl
      exact ⟨fun n hn => congrArg decimal (Option.some.inj hn), fun hn => (nomatch hn)⟩

theorem scanDelay_getD_iff {text : List Char} {m : ℤ} :
    (scanDelay text).getD 0 = m ↔ NumberAt text m ∨ m = 0 ∧ ∀ v, ¬NumberAt text v := by
  simp only [← scanDelay_eq_some_iff]
  cases hscan : scanDelay text with
  | none =>
    simp [eq_comm]
  | some v =>
    simp

theorem Peeked.text_eq {received : Peeked} (h : '\x00' ∉ received.1) : received.text = received.1 := by
  rw [Peeked.text, cstr, List.takeWhile_eq_self_iff]
  intro c hc
  simpa using fun h' : c = '\x00' => h (h' ▸ hc)

/-- **When the delay that is returned is the one of the header.** -/
theorem delay_right_iff (received : Peeked) (hnul : '\x00' ∉ received.1) (r : HttpRequest)
    (hr : Returns received r) : DelayRight received.1 r.delay ↔ DelayReadable received.1 := by
  rw [(returns_iff.mp hr).2, Peeked.text_eq hnul, delayText_eq, delayRight_iff, scanDelay_getD_iff]
  rfl

/-- `DELETE /1/a` with a delay of five seconds: the first `D` is the one of the method. -/
def deleteRequest : Peeked := ⟨"DELETE /1/a\nDelay: 5\n".toList, by decide⟩

def getRequest : Peeked := ⟨"GET /1/a\nHost: x\nDelay: 5\r\n".toList, by decide⟩

theorem getRequest_returns :
    Returns getRequest ⟨"GET".toList, "/1/a".toList, ['5']⟩ :=
  ⟨0, by decide +kernel⟩

theorem delay_right_get : DelayRight getRequest.1 ['5'] := by
  refine (delay_right_iff getRequest (by decide +kernel) _ getRequest_returns).mpr ?_
  left
  exact scanDelay_eq_some_iff.mp (by decide +kernel)

theorem delay_of_delete_lost :
    ¬∀ (received : Peeked) (_ : '\x00' ∉ received.1) (r : HttpRequest), Returns received r →
      DelayRight received.1 r.delay := by
  intro h
  have hreturns : Returns deleteRequest ⟨"DELETE".toList, "/1/a".toList, ['0']⟩ :=
    ⟨0, by decide +kernel⟩
  have hright := (h deleteRequest (by decide +kernel) _ hreturns).1 5 (by decide +kernel)
  exact absurd hright (by decide +kernel)

/-! ### The usual case -/

theorem delayHeader_eq_some {line : List Char} {n : ℤ} (h : delayHeader line = some n) :
    ∃ num, dropCR line = delayWord ++ ([' '] ++ num) ∧ decimalOf num = some n ∧ storeInt n = n := by
  unfold delayHeader at h
  split at h
  · rename_i num hnum
    obtain ⟨hn, hfits⟩ := Option.filter_eq_some_iff.mp h
    refine ⟨num, ?_, hn, ?_⟩
    · rw [← List.isPrefixOf?_eq_some_iff_append_eq.mp hnum, List.append_assoc]
    · have : -2 ^ 31 ≤ n ∧ n < 2 ^ 31 := by simpa using hfits
      exact storeInt_of_fits this.1 this.2
  · cases h

theorem dropCR_split (line : List Char) : ∃ cr, line = dropCR line ++ cr ∧ (cr = [] ∨ cr = ['\r']) := by
  unfold dropCR
  split
  · rename_i h
    exact ⟨['\r'], (List.dropLast_append_getLast? _ h).symm, .inr rfl⟩
  · exact ⟨[], (List.append_nil line).symm, .inl rfl⟩

/-- **The delay is right where the header line brings the first `D`** of the text. -/
theorem delayReadable_of_first {text front line rest : List Char} {n : ℤ}
    (htext : text = front ++ (line ++ rest)) (hfront : front ≠ []) (hD : 'D' ∉ front)
    (hrest : rest = [] ∨ rest.head? = some '\n') (hline : delayHeader line = some n)
    (hheader : headerDelay text = some n) : DelayReadable text := by
  obtain ⟨num, hdrop, hnum, hstore⟩ := delayHeader_eq_some hline
  obtain ⟨cr, hcr, hcases⟩ := dropCR_split line
  have hends : Ends (cr ++ rest) := by
    intro c hc
    rcases hcases with rfl | rfl
    · rcases hrest with rfl | hrest
      · cases hc
      · rw [List.nil_append, hrest] at hc
        rw [← Option.some.inj hc]
        rfl
    · rw [← Option.some.inj hc]
      rfl
  left
  rw [hheader]
  have hblank : ∀ c ∈ [' '], isSpace c = true := fun c hc => by
    rw [List.mem_singleton.mp hc]
    rfl
  refine ⟨front, [' '], num, cr ++ rest, n, ?_, hfront, hD, hblank, hnum, hends, hstore.symm⟩
  rw [htext, hcr, hdrop]
  simp only [List.append_assoc]

end OperatingSystems.Proxy
