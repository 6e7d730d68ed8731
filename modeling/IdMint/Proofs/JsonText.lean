import IdMint.Proofs.Decimal
import IdMint.Proofs.HexText
import IdMint.Proofs.Utf8
import IdMint.Text.Json

/-!
# The printed document is the document

The reader below knows nothing of how documents are laid out. It goes by the grammar of
JSON, of which it knows as much as documents have: integers, texts, lists and named
members, with blanks between them wherever the grammar has some. What it takes for a
document is one, and a text is at most one document.

Whatever is printed is read as the document that it was printed for. So nothing gets
lost on the way to the screen, and two documents are never printed alike. And it is printed
whenever its texts are UTF-8, as the grammar wants the whole to be; escaping neither makes
a text UTF-8 nor keeps it from being so.
-/

namespace IdMint

namespace Json

/-! ## Reading -/

def IsBlank (b : UInt8) : Prop := b = 0x20 ∨ b = 0x09 ∨ b = 0x0a ∨ b = 0x0d

instance : DecidablePred IsBlank := fun _ => inferInstanceAs (Decidable (_ ∨ _ ∨ _ ∨ _))

def skipBlanks (text : Bytes) : Bytes := text.dropWhile fun b => IsBlank b

def isDigit (b : UInt8) : Bool := (Decimal.digitValue? b).isSome

/-- The number at the beginning of a text. A leading zero has to be alone. -/
def readNat? (text : Bytes) : Option (Nat × Bytes) :=
  let digits := text.takeWhile isDigit
  if digits = [] ∨ digits.head? = some '0'.toUInt8 ∧ 1 < digits.length then none
  else do
    let ds ← digits.mapM Decimal.digitValue?
    some (Numeral.value 10 ds, text.dropWhile isDigit)

def readInt? (text : Bytes) : Option (Int × Bytes) :=
  if text.head? = some '-'.toUInt8 then
    (readNat? text.tail).map fun found => (-found.1, found.2)
  else (readNat? text).map fun found => (found.1, found.2)

/-- What a character stands for behind a backslash, apart from the code points. -/
def escapes : List (UInt8 × UInt8) :=
  [('"'.toUInt8, '"'.toUInt8), ('\\'.toUInt8, '\\'.toUInt8), ('/'.toUInt8, '/'.toUInt8),
   ('b'.toUInt8, 8), ('f'.toUInt8, 12), ('n'.toUInt8, 10), ('r'.toUInt8, 13), ('t'.toUInt8, 9)]

/-- The character that four hexadecimal digits stand for. Halves of a pair are not read. -/
def codePoint? (digits : Bytes) : Option Char := do
  let ds ← digits.mapM Hex.digitValue?
  let v := Numeral.value 16 ds
  if 0xd800 ≤ v ∧ v ≤ 0xdfff then none else some (Char.ofNat v)

/-- The text up to the next quote, and what is behind that. -/
def readText? : Bytes → Option (Bytes × Bytes)
  | [] => none
  | b :: rest =>
    if b = '"'.toUInt8 then some ([], rest)
    else if b = '\\'.toUInt8 then
      match rest with
      | [] => none
      | e :: rest =>
        if e = 'u'.toUInt8 then
          match rest with
          | d₁ :: d₂ :: d₃ :: d₄ :: rest => do
            let c ← codePoint? [d₁, d₂, d₃, d₄]
            (readText? rest).map (Prod.map (String.utf8EncodeChar c ++ ·) id)
          | _ => none
        else do
          let c ← escapes.lookup e
          (readText? rest).map (Prod.map (c :: ·) id)
    else if b < 0x20 then none
    else (readText? rest).map (Prod.map (b :: ·) id)

section

variable {α : Type}

/-- The parts up to a closing bracket, of which one at least is to come and no more than the
number says. -/
def readMore (readPart? : Bytes → Option (α × Bytes)) (close : UInt8) :
    Nat → Bytes → Option (List α × Bytes)
  | 0, _ => none
  | count + 1, t => do
    let (part, rest) ← readPart? (skipBlanks t)
    match skipBlanks rest with
    | [] => none
    | b :: rest =>
      if b = close then some ([part], rest)
      else if b = ','.toUInt8 then
        (readMore readPart? close count rest).map (Prod.map (part :: ·) id)
      else none

/-- The parts up to a closing bracket, if any. -/
def readParts (readPart? : Bytes → Option (α × Bytes)) (close : UInt8) (text : Bytes) :
    Option (List α × Bytes) :=
  match skipBlanks text with
  | [] => none
  | b :: rest =>
    if b = close then some ([], rest) else readMore readPart? close text.length text

end

/-- A name, a colon and a value. -/
def readMember? (readValue? : Bytes → Option (Json × Bytes)) (text : Bytes) :
    Option ((Bytes × Json) × Bytes) :=
  if text.head? = some '"'.toUInt8 then do
    let (name, rest) ← readText? text.tail
    match skipBlanks rest with
    | [] => none
    | b :: rest =>
      if b = ':'.toUInt8 then do
        let (value, rest) ← readValue? (skipBlanks rest)
        some ((name, value), rest)
      else none
  else none

/-- The document at the beginning of a text, if it is not nested more deeply than the number
says. -/
def read? : Nat → Bytes → Option (Json × Bytes)
  | 0, _ => none
  | _ + 1, [] => none
  | depth + 1, b :: rest =>
    if b = '"'.toUInt8 then (readText? rest).map (Prod.map .text id)
    else if b = '['.toUInt8 then
      (readParts (read? depth) ']'.toUInt8 rest).map (Prod.map .list id)
    else if b = 0x7b then
      (readParts (readMember? (read? depth)) 0x7d rest).map (Prod.map .members id)
    else (readInt? (b :: rest)).map (Prod.map .int id)

/-- The document that a text is, if it is one and nothing else. -/
def parse? (text : Bytes) : Option Json :=
  if Utf8.IsText text then do
    let (j, rest) ← read? text.length (skipBlanks text)
    if skipBlanks rest = [] then some j else none
  else none

/-! ## Induction -/

/-- What holds of a list if it holds of its items, and of members if it holds of their values,
holds of every document. -/
theorem inductionOn {P : Json → Prop} (int : ∀ n, P (.int n)) (text : ∀ t, P (.text t))
    (list : ∀ items, (∀ item ∈ items, P item) → P (.list items))
    (members : ∀ entries, (∀ entry ∈ entries, P entry.2) → P (.members entries)) (j : Json) :
    P j :=
  @Json.rec P (fun items => ∀ item ∈ items, P item) (fun entries => ∀ entry ∈ entries, P entry.2)
    (fun entry => P entry.2) int text list members (List.forall_mem_nil _)
    (fun _ _ hitem hitems => List.forall_mem_cons.mpr ⟨hitem, hitems⟩) (List.forall_mem_nil _)
    (fun _ _ hentry hentries => List.forall_mem_cons.mpr ⟨hentry, hentries⟩)
    (fun _ _ hvalue => hvalue) j

theorem renderItems_eq_map (depth : Nat) (items : List Json) :
    renderItems depth items = items.map (render depth) := by
  induction items with
  | nil => rfl
  | cons item items ih => exact congrArg (List.cons _) ih

theorem renderEntries_eq_map (depth : Nat) (entries : List (Bytes × Json)) :
    renderEntries depth entries
      = entries.map fun entry => quote entry.1 ++ ascii ": " ++ entry.2.render depth := by
  induction entries with
  | nil => rfl
  | cons entry entries ih => exact congrArg (List.cons _) ih

theorem itemTexts_eq_flatMap (items : List Json) : itemTexts items = items.flatMap texts := by
  induction items with
  | nil => rfl
  | cons item items ih => exact congrArg (item.texts ++ ·) ih

theorem entryTexts_eq_flatMap (entries : List (Bytes × Json)) :
    entryTexts entries = entries.flatMap fun entry => entry.1 :: entry.2.texts := by
  induction entries with
  | nil => rfl
  | cons entry entries ih => exact congrArg (entry.1 :: entry.2.texts ++ ·) ih

/-! ## Numbers and texts are read back -/

/-- The text does not go on with a digit. -/
def EndsNumber (rest : Bytes) : Prop := ∀ b ∈ rest.head?, isDigit b = false

theorem isDigit_digitByte {d : Nat} (h : d < 10) : isDigit (Decimal.digitByte d) = true := by
  rw [isDigit, Decimal.digitValue?_digitByte h]
  rfl

theorem takeWhile_digits {ds : List Nat} (hds : ∀ d ∈ ds, d < 10) {rest : Bytes}
    (hrest : EndsNumber rest) :
    (ds.map Decimal.digitByte ++ rest).takeWhile isDigit = ds.map Decimal.digitByte ∧
      (ds.map Decimal.digitByte ++ rest).dropWhile isDigit = rest := by
  have hall : ∀ b ∈ ds.map Decimal.digitByte, isDigit b = true := by
    intro b hb
    obtain ⟨d, hd, rfl⟩ := List.mem_map.mp hb
    exact isDigit_digitByte (hds d hd)
  rw [List.takeWhile_append_of_pos hall, List.dropWhile_append_of_pos hall]
  cases rest with
  | nil => exact ⟨List.append_nil _, rfl⟩
  | cons b rest =>
      have hb : ¬ isDigit b = true := by
        rw [hrest b rfl]
        exact Bool.false_ne_true
      rw [List.takeWhile_cons_of_neg hb, List.dropWhile_cons_of_neg hb, List.append_nil]
      exact ⟨rfl, rfl⟩

/-- A numeral without a leading zero is read as its number. -/
theorem readNat?_digits {ds : List Nat} (hsome : ds ≠ []) (hds : ∀ d ∈ ds, d < 10)
    (hzero : ds.head? = some 0 → ds.length = 1) {rest : Bytes} (hrest : EndsNumber rest) :
    readNat? (ds.map Decimal.digitByte ++ rest) = some (Numeral.value 10 ds, rest) := by
  obtain ⟨htake, hdrop⟩ := takeWhile_digits hds hrest
  rw [readNat?, htake, hdrop,
    Numeral.mapM_map_eq_some (fun d => Decimal.digitValue?_digitByte) hds, if_neg]
  · rfl
  · rintro (hnone | ⟨hhead, hlong⟩)
    · exact hsome (List.map_eq_nil_iff.mp hnone)
    · cases ds with
      | nil => exact hsome rfl
      | cons d ds =>
          have hd := Decimal.digitValue?_digitByte (hds d (List.mem_cons_self ..))
          rw [List.map_cons, List.head?_cons, Option.some.injEq] at hhead
          have hfirst : d = 0 := by
            rw [hhead] at hd
            exact (Option.some.inj hd).symm
          rw [List.length_map, hzero (by rw [hfirst]; rfl)] at hlong
          exact absurd hlong (Nat.lt_irrefl 1)

theorem head?_digits_ne (n : Nat) : (Numeral.digits 10 n).head? ≠ some 0 := by
  have hbase : 2 ≤ 10 := by decide
  have hkept := Numeral.digits_value hbase (Numeral.digits_lt (by decide) n)
  rw [Numeral.value_digits hbase] at hkept
  intro hhead
  cases hdigits : Numeral.digits 10 n with
  | nil => rw [hdigits] at hhead; cases hhead
  | cons d ds =>
      rw [hdigits] at hhead hkept
      obtain rfl : d = 0 := Option.some.inj hhead
      have hlength := congrArg List.length hkept
      have hshort := (List.dropWhile_sublist (l := ds) (· == 0)).length_le
      rw [List.dropWhile_cons_of_pos rfl, List.length_cons] at hlength
      omega

theorem readNat?_ofNat (n : Nat) {rest : Bytes} (hrest : EndsNumber rest) :
    readNat? (Decimal.ofNat n ++ rest) = some (n, rest) := by
  have hbase : 2 ≤ 10 := by decide
  rw [Decimal.ofNat]
  split
  · next hn =>
      rw [hn]
      exact readNat?_digits (List.cons_ne_nil 0 []) (by decide) (fun _ => rfl) hrest
  · next hn =>
      have hvalue := Numeral.value_digits hbase n
      rw [readNat?_digits ?_ (Numeral.digits_lt (by decide) n)
        (fun h => absurd h (head?_digits_ne n)) hrest, hvalue]
      intro hnone
      rw [hnone] at hvalue
      exact hn hvalue.symm

theorem exists_digit_ofNat (n : Nat) :
    ∃ b rest, Decimal.ofNat n = b :: rest ∧ isDigit b = true := by
  obtain ⟨width, ds, htext, hlength, hlt, -⟩ := Decimal.shows_ofNat n
  cases ds with
  | nil => cases hlength
  | cons d ds => exact ⟨_, _, htext, isDigit_digitByte (hlt d (List.mem_cons_self ..))⟩

/-- The bytes that are of use between the parts of a document. -/
def marks : Bytes := ascii " \t\n\r\"[]\x7b\x7d,:"

theorem not_mem_marks_of_isDigit {b : UInt8} (h : isDigit b = true) :
    b ∉ '-'.toUInt8 :: marks := by
  obtain ⟨d, hd⟩ := Option.isSome_iff_exists.mp h
  obtain ⟨hlt, rfl⟩ := Decimal.eq_digitByte_of_digitValue? hd
  have hall : ∀ d ∈ List.range 10, Decimal.digitByte d ∉ '-'.toUInt8 :: marks := by decide
  exact hall d (List.mem_range.mpr hlt)

theorem exists_head_ofInt (n : Int) : ∃ b rest, Decimal.ofInt n = b :: rest ∧ b ∉ marks := by
  obtain ⟨b, rest, htext, hb⟩ := exists_digit_ofNat n.natAbs
  rw [Decimal.ofInt]
  split
  · exact ⟨'-'.toUInt8, _, rfl, by decide⟩
  · exact ⟨b, rest, htext, fun h => not_mem_marks_of_isDigit hb (List.mem_cons_of_mem _ h)⟩

theorem readInt?_ofInt (n : Int) {rest : Bytes} (hrest : EndsNumber rest) :
    readInt? (Decimal.ofInt n ++ rest) = some (n, rest) := by
  rw [Decimal.ofInt]
  split
  · next hn =>
      have hminus : ascii "-" = ['-'.toUInt8] := by decide
      have hvalue : -(n.natAbs : Int) = n := by omega
      rw [hminus, List.append_assoc, List.singleton_append, readInt?, List.head?_cons, if_pos rfl,
        List.tail_cons, readNat?_ofNat _ hrest, Option.map_some, hvalue]
  · next hn =>
      obtain ⟨b, digits, htext, hb⟩ := exists_digit_ofNat n.natAbs
      have hhead : (Decimal.ofNat n.natAbs ++ rest).head? ≠ some '-'.toUInt8 := by
        rw [htext, List.cons_append, List.head?_cons]
        intro heq
        exact not_mem_marks_of_isDigit hb (List.mem_cons.mpr (.inl (Option.some.inj heq)))
      rw [readInt?, if_neg hhead, readNat?_ofNat _ hrest, Option.map_some,
        Int.natAbs_of_nonneg (Int.not_lt.mp hn)]

/-- The ways to write a byte of a text. -/
inductive Escaped (b : UInt8) : Bytes → Prop
  | short {e : UInt8} (hmeans : escapes.lookup e = some b) (he : e ≠ 'u'.toUInt8) :
      Escaped b ['\\'.toUInt8, e]
  | long (hcontrol : b < 32) : Escaped b (ascii "\\u00" ++ Hex.ofByte b)
  | plain (hquote : b ≠ '"'.toUInt8) (hslash : b ≠ '\\'.toUInt8) (hcontrol : ¬ b < 32) :
      Escaped b [b]

theorem escaped_escapeByte (b : UInt8) : Escaped b (escapeByte b) := by
  rw [escapeByte]
  split
  · next h => exact h ▸ .short (e := '"'.toUInt8) (by decide) (by decide)
  split
  · next h => exact h ▸ .short (e := '\\'.toUInt8) (by decide) (by decide)
  split
  · next h => exact h ▸ .short (e := 'b'.toUInt8) (by decide) (by decide)
  split
  · next h => exact h ▸ .short (e := 't'.toUInt8) (by decide) (by decide)
  split
  · next h => exact h ▸ .short (e := 'n'.toUInt8) (by decide) (by decide)
  split
  · next h => exact h ▸ .short (e := 'f'.toUInt8) (by decide) (by decide)
  split
  · next h => exact h ▸ .short (e := 'r'.toUInt8) (by decide) (by decide)
  split
  · next h => exact .long h
  · next hquote hslash _ _ _ _ _ hcontrol => exact .plain hquote hslash hcontrol

/-- What can be checked of the control characters one by one. -/
theorem of_forall_control {P : UInt8 → Prop} (hall : ∀ n ∈ List.range 32, P (UInt8.ofNat n))
    {b : UInt8} (h : b < 32) : P b := by
  have hb := hall b.toNat (List.mem_range.mpr (UInt8.lt_iff_toNat_lt.mp h))
  rwa [UInt8.ofNat_toNat] at hb

/-- The four digits of a control character. -/
theorem codePoint?_ofByte {b : UInt8} (h : b < 32) :
    codePoint? (ascii "00" ++ Hex.ofByte b) = some (Char.ofNat b.toNat) :=
  of_forall_control (P := fun b =>
    codePoint? (ascii "00" ++ Hex.ofByte b) = some (Char.ofNat b.toNat)) (by decide) h

theorem utf8EncodeChar_control {b : UInt8} (h : b < 32) :
    String.utf8EncodeChar (Char.ofNat b.toNat) = [b] :=
  of_forall_control (P := fun b => String.utf8EncodeChar (Char.ofNat b.toNat) = [b]) (by decide) h

theorem readText?_escapeByte (b : UInt8) (rest : Bytes) :
    readText? (escapeByte b ++ rest) = (readText? rest).map (Prod.map (b :: ·) id) := by
  have hescaped := escaped_escapeByte b
  generalize escapeByte b = written at hescaped
  have hslash : '\\'.toUInt8 ≠ '"'.toUInt8 := by decide
  cases hescaped with
  | @short e hmeans he =>
      rw [List.cons_append, List.singleton_append, readText?.eq_def]
      simp only [if_neg hslash, if_true, if_neg he, hmeans]
      rfl
  | long hcontrol =>
      have hfour : ascii "\\u00" ++ Hex.ofByte b ++ rest
          = '\\'.toUInt8 :: 'u'.toUInt8 :: 0x30 :: 0x30 :: Hex.digitByte (b.toNat / 16)
            :: Hex.digitByte (b.toNat % 16) :: rest := by
        have hfront : ascii "\\u00" = ['\\'.toUInt8, 'u'.toUInt8, 0x30, 0x30] := by decide
        rw [hfront]
        rfl
      have hcode : codePoint? [0x30, 0x30, Hex.digitByte (b.toNat / 16),
          Hex.digitByte (b.toNat % 16)] = some (Char.ofNat b.toNat) := codePoint?_ofByte hcontrol
      rw [hfour, readText?.eq_def]
      simp only [if_neg hslash, if_true, hcode]
      show (readText? rest).map _ = _
      rw [utf8EncodeChar_control hcontrol]
      rfl
  | plain hquote hslash hcontrol =>
      rw [List.singleton_append, readText?.eq_def]
      simp only [if_neg hquote, if_neg hslash, if_neg hcontrol]

theorem readText?_quote (t rest : Bytes) :
    readText? (t.flatMap escapeByte ++ '"'.toUInt8 :: rest) = some (t, rest) := by
  induction t with
  | nil => rw [List.flatMap_nil, List.nil_append, readText?.eq_def]; exact if_pos rfl
  | cons b t ih =>
      rw [List.flatMap_cons, List.append_assoc, readText?_escapeByte, ih]
      rfl

/-! ## Parts between brackets -/

/-- The text begins with something that is no mark, and in front of whatever does not go on
with a digit it is read as this. -/
structure Reads {α : Type} (read? : Bytes → Option (α × Bytes)) (a : α) (t : Bytes) : Prop where
  begins : ∃ b rest, t = b :: rest ∧ ¬ IsBlank b ∧ b ∉ [']'.toUInt8, 0x7d]
  reads : ∀ rest, EndsNumber rest → read? (t ++ rest) = some (a, rest)

theorem isBlank_of_mem_lineBreak {depth : Nat} : ∀ b ∈ lineBreak depth, IsBlank b := by
  intro b hb
  have hnewline : ascii "\n" = [0x0a] := by decide
  rw [lineBreak, hnewline, List.mem_append, List.mem_singleton] at hb
  rcases hb with rfl | hb
  · decide
  · rw [List.eq_of_mem_replicate hb]
    decide

theorem skipBlanks_lineBreak_append (depth : Nat) (t : Bytes) :
    skipBlanks (lineBreak depth ++ t) = skipBlanks t := by
  refine List.dropWhile_append_of_pos fun b hb => ?_
  exact decide_eq_true (isBlank_of_mem_lineBreak b hb)

theorem skipBlanks_blank_cons {b : UInt8} (hb : IsBlank b) (rest : Bytes) :
    skipBlanks (b :: rest) = skipBlanks rest :=
  List.dropWhile_cons_of_pos (by rwa [decide_eq_true_eq])

theorem skipBlanks_cons {b : UInt8} (hb : ¬ IsBlank b) (rest : Bytes) :
    skipBlanks (b :: rest) = b :: rest := by
  refine List.dropWhile_cons_of_neg ?_
  rwa [decide_eq_true_eq]

section

variable {α : Type} {read? : Bytes → Option (α × Bytes)} {close : UInt8}

theorem Reads.skipBlanks_append {a : α} {t : Bytes} (h : Reads read? a t) (rest : Bytes) :
    skipBlanks (t ++ rest) = t ++ rest := by
  obtain ⟨b, tail, rfl, hb, _⟩ := h.begins
  exact skipBlanks_cons hb _

theorem endsNumber_cons {b : UInt8} (hb : isDigit b = false) (rest : Bytes) :
    EndsNumber (b :: rest) := by
  rintro _ ⟨⟩
  exact hb

theorem readMore_last (hclose : ¬ IsBlank close) (depth outer count : Nat) {a : α} {t : Bytes}
    (hpart : Reads read? a t) (rest : Bytes) :
    readMore read? close (count + 1)
        (lineBreak depth ++ t ++ (lineBreak outer ++ close :: rest))
      = some ([a], rest) := by
  have hends : EndsNumber (lineBreak outer ++ close :: rest) := endsNumber_cons (by decide) _
  rw [List.append_assoc, readMore, skipBlanks_lineBreak_append, hpart.skipBlanks_append,
    hpart.reads _ hends]
  simp only [Option.bind_eq_bind, Option.bind_some, skipBlanks_lineBreak_append,
    skipBlanks_cons hclose, if_true]

theorem readMore_next (hclose : close ≠ ','.toUInt8) (depth count : Nat) {a : α} {t : Bytes}
    (hpart : Reads read? a t) (more : Bytes) :
    readMore read? close (count + 1) (lineBreak depth ++ t ++ ','.toUInt8 :: more)
      = (readMore read? close count more).map (Prod.map (a :: ·) id) := by
  have hends : EndsNumber (','.toUInt8 :: more) := endsNumber_cons (by decide) _
  have hcomma : ¬ IsBlank ','.toUInt8 := by decide
  rw [List.append_assoc, readMore, skipBlanks_lineBreak_append, hpart.skipBlanks_append,
    hpart.reads _ hends]
  simp only [Option.bind_eq_bind, Option.bind_some, skipBlanks_cons hcomma, if_neg hclose.symm,
    if_true]

theorem intercalate_lines (depth : Nat) (t u : Bytes) (texts : List Bytes) :
    (ascii ",").intercalate ((t :: u :: texts).map (lineBreak depth ++ ·))
      = lineBreak depth ++ t
        ++ ','.toUInt8 :: (ascii ",").intercalate ((u :: texts).map (lineBreak depth ++ ·)) := by
  have hcomma : ascii "," = [','.toUInt8] := by decide
  rw [List.map_cons, List.map_cons, List.intercalate_cons_cons, hcomma, List.append_assoc,
    List.singleton_append]

/-- Parts on lines of their own are read up to the bracket behind them. -/
theorem readMore_parts (hclose : ¬ IsBlank close ∧ close ≠ ','.toUInt8) (depth outer : Nat)
    {a : α} {values : List α} {t : Bytes} {texts : List Bytes} (hpart : Reads read? a t)
    (hmore : List.Forall₂ (Reads read?) values texts) {count : Nat} (hcount : texts.length < count)
    (rest : Bytes) :
    readMore read? close count
        ((ascii ",").intercalate ((t :: texts).map (lineBreak depth ++ ·))
          ++ (lineBreak outer ++ close :: rest))
      = some (a :: values, rest) := by
  obtain ⟨count, rfl⟩ := Nat.exists_eq_add_one_of_ne_zero (Nat.ne_zero_of_lt hcount)
  induction hmore generalizing a t count with
  | nil =>
      rw [List.map_singleton, List.intercalate_singleton]
      exact readMore_last hclose.1 depth outer count hpart rest
  | @cons b u values texts hnext _ ih =>
      rw [List.length_cons, Nat.add_lt_add_iff_right] at hcount
      obtain ⟨count, rfl⟩ := Nat.exists_eq_add_one_of_ne_zero (Nat.ne_zero_of_lt hcount)
      rw [intercalate_lines, List.append_assoc, List.cons_append,
        readMore_next hclose.2 depth _ hpart, ih hnext count hcount]
      rfl

theorem length_lines (depth : Nat) (texts : List Bytes) :
    texts.length ≤ ((ascii ",").intercalate (texts.map (lineBreak depth ++ ·))).length ∧
      ∀ t ∈ texts,
        t.length < ((ascii ",").intercalate (texts.map (lineBreak depth ++ ·))).length := by
  have hpart : ∀ t : Bytes, t.length + 1 ≤ (lineBreak depth ++ t).length := by
    intro t
    have hnewline : (ascii "\n").length = 1 := by decide
    rw [lineBreak, List.length_append, List.length_append, hnewline]
    omega
  induction texts with
  | nil => exact ⟨Nat.zero_le _, List.forall_mem_nil _⟩
  | cons t texts ih =>
      have hfirst := hpart t
      cases texts with
      | nil =>
          rw [List.map_singleton, List.intercalate_singleton, List.length_singleton,
            List.forall_mem_singleton]
          omega
      | cons u texts =>
          obtain ⟨hcount, hmore⟩ := ih
          rw [intercalate_lines]
          simp only [List.length_append, List.length_cons] at hcount hfirst ⊢
          refine ⟨by omega, List.forall_mem_cons.mpr ⟨by omega, fun v hv => ?_⟩⟩
          have := hmore v hv
          omega

/-- What is enclosed is read up to the closing bracket. -/
theorem readParts_enclose (hclose : close ∈ [']'.toUInt8, 0x7d]) (left : UInt8) (depth : Nat)
    {values : List α} {texts : List Bytes} (h : List.Forall₂ (Reads read?) values texts) :
    ∃ inside, enclose left close depth texts = left :: inside ∧
      ∀ rest, readParts read? close (inside ++ rest) = some (values, rest) := by
  have hmark : ¬ IsBlank close ∧ close ≠ ','.toUInt8 := by
    obtain rfl | rfl := List.mem_pair.mp hclose
    · decide
    · decide
  cases h with
  | nil =>
      refine ⟨[close], rfl, fun rest => ?_⟩
      rw [List.singleton_append, readParts, skipBlanks_cons hmark.1]
      exact if_pos rfl
  | @cons a t values texts hpart hmore =>
      let lines := (ascii ",").intercalate ((t :: texts).map (lineBreak (depth + 1) ++ ·))
      refine ⟨lines ++ (lineBreak depth ++ [close]), ?_, fun rest => ?_⟩
      · rw [enclose, if_neg (by exact Bool.false_ne_true), List.cons_append, List.cons_append,
          List.append_assoc]
      have hcount : texts.length < (lines ++ (lineBreak depth ++ close :: rest)).length := by
        have hlines := (length_lines (depth + 1) (t :: texts)).1
        rw [List.length_append]
        exact Nat.lt_of_lt_of_le hlines (Nat.le_add_right _ _)
      obtain ⟨more, hlines⟩ : ∃ more, lines = lineBreak (depth + 1) ++ (t ++ more) := by
        cases texts with
        | nil => exact ⟨[], by rw [List.append_nil]; exact List.intercalate_singleton⟩
        | cons u texts =>
            exact ⟨_, (intercalate_lines _ t u texts).trans (List.append_assoc _ _ _)⟩
      obtain ⟨b, _, htext, hb, hmarks⟩ := hpart.begins
      have hother : b ≠ close := fun h => hmarks (h ▸ hclose)
      rw [List.append_assoc, List.append_assoc, List.singleton_append, readParts]
      have hskip : skipBlanks (lines ++ (lineBreak depth ++ close :: rest))
          = t ++ (more ++ (lineBreak depth ++ close :: rest)) := by
        rw [hlines, List.append_assoc, List.append_assoc, skipBlanks_lineBreak_append,
          hpart.skipBlanks_append]
      rw [hskip, htext]
      show (if b = close then _ else _) = _
      rw [if_neg hother]
      exact readMore_parts hmark (depth + 1) depth hpart hmore hcount rest

theorem length_lt_length_enclose (left close : UInt8) (depth : Nat) {t : Bytes}
    {texts : List Bytes} (h : t ∈ texts) :
    t.length + 1 < (enclose left close depth texts).length := by
  have hlines := (length_lines (depth + 1) texts).2 t h
  have hsome : ¬ texts.isEmpty = true := by
    rw [List.isEmpty_iff]
    exact List.ne_nil_of_mem h
  rw [enclose, if_neg hsome, List.cons_append, List.cons_append, List.length_cons,
    List.length_append, List.length_append]
  omega

end

/-! ## Documents are read back -/

theorem of_not_mem_marks {b : UInt8} (h : b ∉ marks) : ¬ IsBlank b ∧ b ≠ '"'.toUInt8 ∧
    b ≠ '['.toUInt8 ∧ b ≠ 0x7b ∧ b ∉ [']'.toUInt8, 0x7d] := by
  have hmarks : [']'.toUInt8, 0x7d] ⊆ marks := by decide
  refine ⟨?_, ?_, ?_, ?_, fun hb => h (hmarks hb)⟩
  · rintro (rfl | rfl | rfl | rfl)
    · exact h (by decide)
    · exact h (by decide)
    · exact h (by decide)
    · exact h (by decide)
  · rintro rfl
    exact h (by decide)
  · rintro rfl
    exact h (by decide)
  · rintro rfl
    exact h (by decide)

theorem reads_int (n : Int) (depth : Nat) :
    Reads (read? (depth + 1)) (.int n) (Decimal.ofInt n) := by
  obtain ⟨b, digits, htext, hb⟩ := exists_head_ofInt n
  obtain ⟨hblank, hquote, hbracket, hbrace, hclose⟩ := of_not_mem_marks hb
  refine ⟨⟨b, digits, htext, hblank, hclose⟩, fun rest hrest => ?_⟩
  have hread := readInt?_ofInt n hrest
  rw [htext, List.cons_append] at hread ⊢
  rw [read?, if_neg hquote, if_neg hbracket, if_neg hbrace, hread]
  rfl

theorem quote_append (t rest : Bytes) :
    quote t ++ rest = '"'.toUInt8 :: (t.flatMap escapeByte ++ '"'.toUInt8 :: rest) := by
  have hquote : ascii "\"" = ['"'.toUInt8] := by decide
  rw [quote, hquote, List.append_assoc, List.append_assoc]
  rfl

theorem reads_text (t : Bytes) (depth : Nat) : Reads (read? (depth + 1)) (.text t) (quote t) := by
  refine ⟨⟨_, _, (List.append_nil _).symm.trans (quote_append t []), by decide, by decide⟩, ?_⟩
  intro rest _
  rw [quote_append, read?, if_pos rfl, readText?_quote]
  rfl

theorem reads_member {depth inner : Nat} {entry : Bytes × Json}
    (h : Reads (read? depth) entry.2 (entry.2.render inner)) :
    Reads (readMember? (read? depth)) entry
      (quote entry.1 ++ ascii ": " ++ entry.2.render inner) := by
  have hcolon : ascii ": " = [':'.toUInt8, 0x20] := by decide
  have hmark : ¬ IsBlank ':'.toUInt8 := by decide
  have hblank : IsBlank 0x20 := by decide
  refine ⟨⟨_, _, by rw [List.append_assoc, quote_append], by decide, by decide⟩, ?_⟩
  intro rest hrest
  have hskip : skipBlanks (0x20 :: (entry.2.render inner ++ rest))
      = entry.2.render inner ++ rest :=
    (skipBlanks_blank_cons hblank _).trans (h.skipBlanks_append rest)
  rw [List.append_assoc, List.append_assoc, quote_append, readMember?, List.head?_cons, if_pos rfl,
    List.tail_cons, readText?_quote, hcolon]
  simp only [Option.bind_eq_bind, Option.bind_some, List.cons_append, List.nil_append,
    skipBlanks_cons hmark, if_true, hskip, h.reads rest hrest]

theorem reads_list {depth inner : Nat} {items : List Json}
    (h : ∀ item ∈ items, Reads (read? depth) item (item.render (inner + 1))) :
    Reads (read? (depth + 1)) (.list items) ((Json.list items).render inner) := by
  have hitems : List.Forall₂ (Reads (read? depth)) items (renderItems (inner + 1) items) := by
    rw [renderItems_eq_map, List.forall₂_map_right_iff, List.forall₂_same]
    exact h
  obtain ⟨inside, hrender, hread⟩ :=
    readParts_enclose (by decide : ']'.toUInt8 ∈ [']'.toUInt8, 0x7d]) '['.toUInt8 inner hitems
  rw [render, hrender]
  refine ⟨⟨_, _, rfl, by decide, by decide⟩, fun rest _ => ?_⟩
  rw [List.cons_append, read?, if_neg (by decide), if_pos rfl, hread]
  rfl

theorem reads_members {depth inner : Nat} {entries : List (Bytes × Json)}
    (h : ∀ entry ∈ entries, Reads (read? depth) entry.2 (entry.2.render (inner + 1))) :
    Reads (read? (depth + 1)) (.members entries) ((Json.members entries).render inner) := by
  have hentries : List.Forall₂ (Reads (readMember? (read? depth))) entries
      (renderEntries (inner + 1) entries) := by
    rw [renderEntries_eq_map, List.forall₂_map_right_iff, List.forall₂_same]
    exact fun entry hentry => reads_member (h entry hentry)
  obtain ⟨inside, hrender, hread⟩ :=
    readParts_enclose (by decide : (0x7d : UInt8) ∈ [']'.toUInt8, 0x7d]) 0x7b inner hentries
  rw [render, hrender]
  refine ⟨⟨_, _, rfl, by decide, by decide⟩, fun rest _ => ?_⟩
  rw [List.cons_append, read?, if_neg (by decide), if_neg (by decide), if_pos rfl, hread]
  rfl

/-- A document is read back, however far the layout has moved it to the right. -/
theorem reads_render (j : Json) :
    ∀ depth n, (j.render depth).length < n → Reads (read? n) j (j.render depth) := by
  induction j using inductionOn with
  | int i =>
      intro depth n hn
      obtain ⟨n, rfl⟩ := Nat.exists_eq_add_one_of_ne_zero (Nat.ne_zero_of_lt hn)
      exact reads_int i n
  | text t =>
      intro depth n hn
      obtain ⟨n, rfl⟩ := Nat.exists_eq_add_one_of_ne_zero (Nat.ne_zero_of_lt hn)
      exact reads_text t n
  | list items ih =>
      intro depth n hn
      obtain ⟨n, rfl⟩ := Nat.exists_eq_add_one_of_ne_zero (Nat.ne_zero_of_lt hn)
      refine reads_list fun item hitem => ih item hitem _ _ ?_
      have hmem : item.render (depth + 1) ∈ renderItems (depth + 1) items := by
        rw [renderItems_eq_map]
        exact List.mem_map_of_mem hitem
      have hlength := length_lt_length_enclose '['.toUInt8 ']'.toUInt8 depth hmem
      rw [render] at hn
      omega
  | members entries ih =>
      intro depth n hn
      obtain ⟨n, rfl⟩ := Nat.exists_eq_add_one_of_ne_zero (Nat.ne_zero_of_lt hn)
      refine reads_members fun entry hentry => ih entry hentry _ _ ?_
      have hmem : quote entry.1 ++ ascii ": " ++ entry.2.render (depth + 1)
          ∈ renderEntries (depth + 1) entries := by
        rw [renderEntries_eq_map]
        exact List.mem_map_of_mem (f := fun entry : Bytes × Json =>
          quote entry.1 ++ ascii ": " ++ entry.2.render (depth + 1)) hentry
      have hlength := length_lt_length_enclose 0x7b 0x7d depth hmem
      rw [render] at hn
      rw [List.length_append] at hlength
      omega

/-! ## Documents are UTF-8 -/

theorem isAscii_of_lookup {e b : UInt8} (h : escapes.lookup e = some b) :
    Utf8.IsAscii [e, b] := by
  have hall : Utf8.IsAscii (escapes.flatMap fun entry => [entry.1, entry.2]) := by decide
  obtain ⟨front, back, hsplit, _⟩ := List.lookup_eq_some_iff.mp h
  have hmem : (e, b) ∈ escapes := hsplit ▸ List.mem_append_right _ (List.mem_cons_self ..)
  exact fun c hc => hall c (List.mem_flatMap.mpr ⟨(e, b), hmem, hc⟩)

theorem isAscii_escapeByte {b : UInt8} (hb : b.toNat ≤ 0x7f) :
    escapeByte b ≠ [] ∧ Utf8.IsAscii (escapeByte b) := by
  have hescaped := escaped_escapeByte b
  generalize escapeByte b = written at hescaped
  cases hescaped with
  | @short e hmeans _ =>
      have he := isAscii_of_lookup hmeans e (List.mem_cons_self ..)
      have hslash : '\\'.toUInt8.toNat ≤ 0x7f := by decide
      refine ⟨List.cons_ne_nil _ _, List.forall_mem_cons.mpr ⟨hslash, ?_⟩⟩
      exact List.forall_mem_singleton.mpr he
  | long hcontrol =>
      have hascii := of_forall_control
        (P := fun b => Utf8.IsAscii (ascii "\\u00" ++ Hex.ofByte b)) (by decide) hcontrol
      exact ⟨List.append_ne_nil_of_left_ne_nil (by decide) _, hascii⟩
  | plain => exact ⟨List.cons_ne_nil _ _, List.forall_mem_singleton.mpr hb⟩

theorem escapeByte_of_not_ascii {b : UInt8} (hb : 0x7f < b.toNat) : escapeByte b = [b] := by
  have hescaped := escaped_escapeByte b
  generalize escapeByte b = written at hescaped
  cases hescaped with
  | short hmeans _ =>
      have := isAscii_of_lookup hmeans b (List.mem_cons_of_mem _ (List.mem_singleton_self b))
      exact absurd hb (Nat.not_lt.mpr this)
  | long hcontrol =>
      have : b.toNat < 32 := UInt8.lt_iff_toNat_lt.mp hcontrol
      omega
  | plain => rfl

theorem isText_quote {t : Bytes} (h : Utf8.IsText t) : Utf8.IsText (quote t) := by
  have hquote : Utf8.IsText (ascii "\"") := by decide
  have hinside : Utf8.IsText (t.flatMap escapeByte) :=
    (Utf8.isText_flatMap_iff (fun _ => isAscii_escapeByte) fun _ => escapeByte_of_not_ascii).mpr h
  exact (hquote.append hinside).append hquote

theorem isText_lineBreak (depth : Nat) : Utf8.IsText (lineBreak depth) := by
  refine Utf8.IsAscii.isText fun b hb => ?_
  rcases isBlank_of_mem_lineBreak b hb with rfl | rfl | rfl | rfl <;> decide

theorem isText_enclose {left right : UInt8} (hleft : Utf8.IsText [left])
    (hright : Utf8.IsText [right]) (depth : Nat) {parts : List Bytes}
    (h : ∀ part ∈ parts, Utf8.IsText part) : Utf8.IsText (enclose left right depth parts) := by
  have hlines : Utf8.IsText ((ascii ",").intercalate (parts.map (lineBreak (depth + 1) ++ ·))) := by
    have hcomma : Utf8.IsText [','.toUInt8] := by decide
    have hline := fun part hpart => (isText_lineBreak (depth + 1)).append (h part hpart)
    induction parts with
    | nil => rfl
    | cons part parts ih =>
        cases parts with
        | nil =>
            rw [List.map_singleton, List.intercalate_singleton]
            exact hline part (List.mem_cons_self ..)
        | cons other parts =>
            rw [intercalate_lines]
            have hmore := ih fun part hpart => h part (List.mem_cons_of_mem _ hpart)
            exact (hline part (List.mem_cons_self ..)).append (hcomma.append (hmore
              fun part hpart => hline part (List.mem_cons_of_mem _ hpart)))
  rw [enclose]
  split
  · exact hleft.append hright
  · exact ((hleft.append hlines).append (isText_lineBreak depth)).append hright

theorem isAscii_of_shows {width n : Nat} {t : Bytes} (h : Decimal.Shows width n t) :
    Utf8.IsAscii t := by
  obtain ⟨ds, rfl, _, hlt, _⟩ := h
  intro b hb
  obtain ⟨d, hd, rfl⟩ := List.mem_map.mp hb
  have hall : ∀ d ∈ List.range 10, (Decimal.digitByte d).toNat ≤ 0x7f := by decide
  exact hall d (List.mem_range.mpr (hlt d hd))

theorem isAscii_ofNat (n : Nat) : Utf8.IsAscii (Decimal.ofNat n) :=
  isAscii_of_shows (Decimal.shows_ofNat n).choose_spec

theorem isAscii_ofInt (n : Int) : Utf8.IsAscii (Decimal.ofInt n) := by
  have hminus : Utf8.IsAscii (ascii "-") := by decide
  rw [Decimal.ofInt]
  split
  · exact hminus.append (isAscii_ofNat _)
  · exact isAscii_ofNat _

/-- Every text in the document is UTF-8. -/
def IsPrintable (j : Json) : Prop := ∀ t ∈ j.texts, Utf8.IsText t

theorem isPrintable_int (n : Int) : (int n).IsPrintable := List.forall_mem_nil _

theorem isPrintable_text_iff {t : Bytes} : (text t).IsPrintable ↔ Utf8.IsText t :=
  List.forall_mem_singleton

theorem isPrintable_list_iff {items : List Json} :
    (list items).IsPrintable ↔ ∀ item ∈ items, item.IsPrintable := by
  rw [IsPrintable, texts, itemTexts_eq_flatMap, List.forall_mem_flatMap]
  rfl

theorem isPrintable_members_iff {entries : List (Bytes × Json)} :
    (members entries).IsPrintable ↔
      ∀ entry ∈ entries, Utf8.IsText entry.1 ∧ entry.2.IsPrintable := by
  rw [IsPrintable, texts, entryTexts_eq_flatMap, List.forall_mem_flatMap]
  simp only [List.forall_mem_cons, IsPrintable]

theorem isText_render (j : Json) :
    j.IsPrintable → ∀ depth, Utf8.IsText (j.render depth) := by
  induction j using inductionOn with
  | int n => exact fun _ _ => (isAscii_ofInt n).isText
  | text t => exact fun h _ => isText_quote (isPrintable_text_iff.mp h)
  | list items ih =>
      intro h depth
      refine isText_enclose (by decide) (by decide) depth fun part hpart => ?_
      rw [renderItems_eq_map] at hpart
      obtain ⟨item, hitem, rfl⟩ := List.mem_map.mp hpart
      exact ih item hitem (isPrintable_list_iff.mp h item hitem) _
  | members entries ih =>
      intro h depth
      refine isText_enclose (by decide) (by decide) depth fun part hpart => ?_
      rw [renderEntries_eq_map] at hpart
      obtain ⟨entry, hentry, rfl⟩ := List.mem_map.mp hpart
      obtain ⟨hname, hvalue⟩ := isPrintable_members_iff.mp h entry hentry
      have hcolon : Utf8.IsText (ascii ": ") := by decide
      exact ((isText_quote hname).append hcolon).append (ih entry hentry hvalue _)

theorem dump?_eq_none_iff {j : Json} : j.dump? = none ↔ ¬ j.IsPrintable := by
  rw [dump?, ite_eq_right_iff]
  exact ⟨fun h hyes => Option.some_ne_none _ (h hyes), fun h hyes => absurd hyes h⟩

/-- What is printed is UTF-8, and it is read as what it was printed for. -/
theorem parse?_of_dump? {j : Json} {t : Bytes} (h : j.dump? = some t) :
    Utf8.IsText (t ++ ascii "\n") ∧ parse? (t ++ ascii "\n") = some j := by
  rw [dump?] at h
  split at h
  · next htexts =>
      cases h
      have hline : Utf8.IsText (j.render 0 ++ ascii "\n") :=
        (isText_render j htexts 0).append (by decide)
      have hlength : (j.render 0).length < (j.render 0 ++ ascii "\n").length := by
        rw [List.length_append]
        exact Nat.lt_succ_self _
      have hreads := reads_render j 0 _ hlength
      have hends : EndsNumber (ascii "\n") := by
        have hnewline : ascii "\n" = [0x0a] := by decide
        rw [hnewline]
        exact endsNumber_cons (by decide) []
      have hrest : skipBlanks (ascii "\n") = [] := by decide
      refine ⟨hline, ?_⟩
      rw [parse?, if_pos hline, hreads.skipBlanks_append, hreads.reads _ hends]
      show (if skipBlanks (ascii "\n") = [] then some j else none) = some j
      rw [if_pos hrest]
  · cases h

/-- Two documents are never printed alike. -/
theorem dump?_injective {j k : Json} {t : Bytes} (hj : j.dump? = some t) (hk : k.dump? = some t) :
    j = k :=
  Option.some.inj ((parse?_of_dump? hj).2.symm.trans (parse?_of_dump? hk).2)

end Json

end IdMint
