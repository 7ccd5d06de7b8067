import DialogueFlow.Text.Quoted
import DialogueFlow.Proofs.NumberText
import DialogueFlow.Proofs.RoundTrip
import Mathlib.Tactic.SplitIfs

namespace DialogueFlow

namespace Text

def codeUnits (n : Nat) : List Nat :=
  if n < 0x10000 then [n]
  else [0xd800 + (n - 0x10000) / 0x400, 0xdc00 + (n - 0x10000) % 0x400]

theorem codeUnits_of_lt {n : Nat} (h : n < 0x10000) : codeUnits n = [n] := if_pos h

def units (codes : List Nat) : List Nat := codes.flatMap codeUnits

theorem units_cons (n : Nat) (codes : List Nat) : units (n :: codes) = codeUnits n ++ units codes :=
  List.flatMap_cons

/-- In no place a high surrogate stands before a low one. -/
def IsJoined (codes : List Nat) : Prop :=
  codes.IsChain (fun m n => ¬ (0xd800 ≤ m ∧ m < 0xdc00 ∧ 0xdc00 ≤ n ∧ n < 0xe000))

instance (codes : List Nat) : Decidable (IsJoined codes) :=
  inferInstanceAs (Decidable (List.IsChain _ _))

def AreCodes (codes : List Nat) : Prop := ∀ n ∈ codes, n < 0x110000

/-- The units of a code point beyond the sixteen-bit range are not those of two other ones. -/
theorem units_ne {m n : Nat} {s t : List Nat} (hs : IsJoined (m :: s)) (hs' : AreCodes s)
    (hm : m < 0x10000) (hn : 0x10000 ≤ n ∧ n < 0x110000) : units (m :: s) ≠ units (n :: t) := by
  intro h
  rw [units_cons, units_cons, codeUnits_of_lt hm, codeUnits, if_neg (by omega)] at h
  obtain ⟨hhigh, h⟩ := List.cons.inj h
  cases s with
  | nil => cases h
  | cons k s =>
    have hfollows := (List.isChain_cons_cons.mp hs).1
    have hk := hs' k List.mem_cons_self
    rw [units_cons, codeUnits] at h
    split at h
    · have hlow := (List.cons.inj h).1
      omega
    · have hlow := (List.cons.inj h).1
      omega

theorem units_inj {s t : List Nat} (hs : IsJoined s) (ht : IsJoined t) (hs' : AreCodes s)
    (ht' : AreCodes t) (h : units s = units t) : s = t := by
  induction s generalizing t with
  | nil =>
    cases t with
    | nil => rfl
    | cons n t =>
      rw [units_cons, codeUnits] at h
      split at h <;> cases h
  | cons m s ih =>
    cases t with
    | nil =>
      rw [units_cons, codeUnits] at h
      split at h <;> cases h
    | cons n t =>
      obtain ⟨hm, hs'⟩ := List.forall_mem_cons.mp hs'
      obtain ⟨hn, ht'⟩ := List.forall_mem_cons.mp ht'
      have hrest := ih hs.of_cons ht.of_cons hs' ht'
      by_cases hm' : m < 0x10000
      · by_cases hn' : n < 0x10000
        · rw [units_cons, units_cons, codeUnits_of_lt hm', codeUnits_of_lt hn'] at h
          obtain ⟨hmn, h⟩ := List.cons.inj h
          rw [hmn, hrest h]
        · exact absurd h (units_ne hs hs' hm' ⟨by omega, hn⟩)
      · by_cases hn' : n < 0x10000
        · exact absurd h.symm (units_ne ht ht' hn' ⟨by omega, hm⟩)
        · rw [units_cons, units_cons, codeUnits, codeUnits, if_neg hm', if_neg hn'] at h
          obtain ⟨hhigh, h⟩ := List.cons.inj h
          obtain ⟨hlow, h⟩ := List.cons.inj h
          have hmn : m = n := by omega
          rw [hmn, hrest h]

theorem char_toNat_bounds (c : Char) : c.toNat < 0xd800 ∨ 0xdfff < c.toNat ∧ c.toNat < 0x110000 :=
  c.valid

theorem areCodes_codes (s : String) : AreCodes (codes s) := by
  intro n hn
  obtain ⟨c, -, rfl⟩ := List.mem_map.mp hn
  have hc := char_toNat_bounds c
  omega

theorem isJoined_codes (s : String) : IsJoined (codes s) := by
  refine List.isChain_map _ |>.mpr (List.Pairwise.isChain ?_)
  refine List.pairwise_of_forall (fun c d h => ?_)
  have hc := char_toNat_bounds c
  omega

theorem codes_injective : Function.Injective codes := by
  intro s t h
  exact String.toList_inj.mp (List.map_injective_iff.mpr (fun c d => Char.toNat_inj.mp) h)

theorem areCodes_raw (s : Raw) : AreCodes s.codes := by
  intro n hn
  obtain ⟨i, -, rfl⟩ := List.mem_map.mp hn
  exact i.isLt

/-- What is written depends on the units only. -/
theorem flatMap_escapeAscii_codeUnits {n : Nat} (hn : n < 0x110000) :
    (codeUnits n).flatMap escapeAscii = escapeAscii n := by
  have hplain : ∀ m, 0x7e < m → escapeAscii m = escapeUnits m := by
    intro m hm
    rw [escapeAscii, if_neg (by omega), if_neg (by omega), if_neg (by omega), if_neg (by omega),
      if_neg (by omega), if_neg (by omega), if_neg (by omega), if_neg (by simp; omega)]
  by_cases h : n < 0x10000
  · rw [codeUnits_of_lt h, List.flatMap_singleton]
  · rw [codeUnits, if_neg h, List.flatMap_cons, List.flatMap_singleton, hplain _ (by omega),
      hplain _ (by omega), hplain n (by omega), escapeUnits, escapeUnits, escapeUnits, if_neg h,
      if_pos (by omega), if_pos (by omega)]

theorem asciiChars_units {codes : List Nat} (h : AreCodes codes) :
    asciiChars (units codes) = asciiChars codes := by
  rw [asciiChars, asciiChars, units, List.flatMap_assoc,
    List.flatMap_congr (fun n hn => flatMap_escapeAscii_codeUnits (h n hn))]

end Text

namespace Json

open Text

theorem hexDigit?_digitChar : ∀ d < 16, hexDigit? (Nat.digitChar d) = some d := by decide

section ReadUnits

variable (start : Nat) (done : List Nat) (offset : Nat) (rest : List Char)

theorem readUnits_hex (mark : Nat) {n : Nat} (hn : n < 0x10000) :
    readUnits start done offset (.digits mark 4 0) (hex 4 n ++ rest) =
      readUnits start (n :: done) (offset + 4) (.between (some mark)) rest := by
  have hdigit : ∀ m, hexDigit? (Nat.digitChar (m % 16)) = some (m % 16) := fun m =>
    hexDigit?_digitChar _ (Nat.mod_lt m (by decide))
  have hvalue : (((0 * 16 + n / 16 / 16 / 16 % 16) * 16 + n / 16 / 16 % 16) * 16 +
      n / 16 % 16) * 16 + n % 16 = n := by omega
  simp only [hex, List.nil_append, List.cons_append, readUnits, hdigit, Nat.reduceLeDiff,
    Nat.reduceSub, if_false, if_true, Nat.le_refl, hvalue]

variable (mark : Option Nat)

theorem readUnits_unit {n : Nat} (hn : n < 0x10000) :
    readUnits start done offset (.between mark) ('\\' :: 'u' :: hex 4 n ++ rest) =
      readUnits start (n :: done) (offset + 6) (.between (some (offset + 1))) rest := by
  rw [List.cons_append, List.cons_append, readUnits, if_neg (by decide), if_pos rfl, readUnits,
    if_pos rfl, readUnits_hex _ _ _ _ _ hn]

theorem readUnits_simpleEscape {n : Nat} {e : Char} (hn : n < 0x80) (he : e ≠ 'u')
    (h : simpleEscape? e = some n) :
    ∃ mark', readUnits start done offset (.between mark) (['\\', e] ++ rest) =
      readUnits start ((codeUnits n).reverse ++ done) (offset + 2) (.between mark') rest := by
  refine ⟨none, ?_⟩
  rw [codeUnits_of_lt (by omega), List.cons_append, List.singleton_append, readUnits,
    if_neg (by decide), if_pos rfl, readUnits, if_neg he, h]
  rfl

theorem readUnits_escapeUnits {n : Nat} (hn : n < 0x110000) :
    ∃ mark', readUnits start done offset (.between mark) (escapeUnits n ++ rest) =
      readUnits start ((codeUnits n).reverse ++ done) (offset + (escapeUnits n).length)
        (.between mark') rest := by
  rw [escapeUnits, codeUnits]
  split
  · next hlow => exact ⟨_, readUnits_unit start done offset rest mark hlow⟩
  · next hhigh =>
    refine ⟨some (offset + 6 + 1), ?_⟩
    rw [List.append_assoc, readUnits_unit _ _ _ _ _ (by omega),
      readUnits_unit _ _ _ _ _ (by omega)]
    rfl

theorem readUnits_printable {n : Nat} (hn : 0x20 ≤ n ∧ n ≤ 0x7e) (hquote : n ≠ 0x22)
    (hbackslash : n ≠ 0x5c) :
    readUnits start done offset (.between mark) (Char.ofNat n :: rest) =
      readUnits start ((codeUnits n).reverse ++ done) (offset + 1) (.between none) rest := by
  have hvalid : n.isValidChar := Or.inl (by omega)
  have hnat : (Char.ofNat n).toNat = n := by
    rw [Char.ofNat, dif_pos hvalid]
    rfl
  have hne : ∀ c : Char, n ≠ c.toNat → Char.ofNat n ≠ c := by
    rintro c hc rfl
    exact hc hnat.symm
  rw [codeUnits_of_lt (by omega), readUnits, if_neg (hne '"' hquote), if_neg (hne '\\' hbackslash),
    hnat, if_neg (by omega)]
  rfl

theorem readUnits_escapeAscii {n : Nat} (hn : n < 0x110000) :
    ∃ mark', readUnits start done offset (.between mark) (escapeAscii n ++ rest) =
      readUnits start ((codeUnits n).reverse ++ done) (offset + (escapeAscii n).length)
        (.between mark') rest := by
  have hsimple := fun e => readUnits_simpleEscape (n := n) (e := e) start done offset rest mark
  rw [escapeAscii]
  split_ifs with hquote hbackslash hnewline hreturn htab hbackspace hfeed hprintable
  · exact hsimple '"' (by omega) (by decide) (hquote ▸ rfl)
  · exact hsimple '\\' (by omega) (by decide) (hbackslash ▸ rfl)
  · exact hsimple 'n' (by omega) (by decide) (hnewline ▸ rfl)
  · exact hsimple 'r' (by omega) (by decide) (hreturn ▸ rfl)
  · exact hsimple 't' (by omega) (by decide) (htab ▸ rfl)
  · exact hsimple 'b' (by omega) (by decide) (hbackspace ▸ rfl)
  · exact hsimple 'f' (by omega) (by decide) (hfeed ▸ rfl)
  · rw [Bool.and_eq_true, decide_eq_true_eq, decide_eq_true_eq] at hprintable
    exact ⟨none, readUnits_printable start done offset rest mark hprintable hquote hbackslash⟩
  · exact readUnits_escapeUnits start done offset rest mark hn

theorem readUnits_flatMap {codes : List Nat} (h : AreCodes codes) :
    readUnits start done offset (.between mark) (codes.flatMap escapeAscii ++ '"' :: rest) =
      .ok (done.reverse ++ units codes,
        ⟨offset + (codes.flatMap escapeAscii).length + 1, rest⟩) := by
  induction codes generalizing done offset mark with
  | nil => rw [units, List.flatMap_nil, List.flatMap_nil, List.append_nil, List.nil_append,
      readUnits, if_pos rfl, List.length_nil, Nat.add_zero]
  | cons n codes ih =>
    obtain ⟨hn, h⟩ := List.forall_mem_cons.mp h
    obtain ⟨mark', hread⟩ :=
      readUnits_escapeAscii start done offset (codes.flatMap escapeAscii ++ '"' :: rest) mark hn
    rw [List.flatMap_cons, units_cons, List.append_assoc, hread, ih _ _ _ h, List.reverse_append,
      List.reverse_reverse, List.append_assoc, List.length_append, Nat.add_assoc offset]

end ReadUnits

section ReadScalar

variable (offset : Nat) {rest : List Char}

theorem readScalar_bool (value : Bool) :
    readScalar ⟨offset, (if value then "true" else "false").toList ++ rest⟩ =
      .ok (.bool value,
        ⟨offset + (if value then "true" else "false").toList.length, rest⟩) := by
  cases value <;> rfl

theorem readScalar_eq_readNumber {text : List Char} (h : ∀ w ∈ words, after? w.1 text = none) :
    readScalar ⟨offset, text⟩ = readNumber ⟨offset, text⟩ := by
  have hnone : words.findSome? (fun w => (after? w.1 text).map (fun rest => (w, rest))) = none := by
    rw [List.findSome?_eq_none_iff]
    intro w hw
    rw [h w hw, Option.map_none]
  rw [readScalar, hnone]

theorem after?_words_of_isDigit (negative : Bool) {c : Char} (hc : c.isDigit = true) :
    ∀ w ∈ words, after? w.1 (Double.signChars negative ++ c :: rest) = none := by
  have hne : ∀ d : Char, d.isDigit = false → d ≠ c := by
    rintro d hd rfl
    exact Bool.false_ne_true (hd.symm.trans hc)
  intro w hw
  simp only [words, List.mem_cons, List.not_mem_nil, or_false] at hw
  cases negative with
  | false => obtain rfl | rfl | rfl | rfl | rfl | rfl := hw <;> exact if_neg (hne _ rfl)
  | true =>
    obtain rfl | rfl | rfl | rfl | rfl | rfl := hw
    · rfl
    · rfl
    · rfl
    · rfl
    · rfl
    · exact if_neg (hne 'I' rfl)

theorem readScalar_finite (negative : Bool) (rank : Fin Double.ranks) (hrest : Ends rest) :
    readScalar ⟨offset, (Double.finite negative rank).chars ++ rest⟩ =
      .ok (.float (.finite negative rank),
        ⟨offset + (Double.finite negative rank).chars.length, rest⟩) := by
  obtain ⟨c, more, hc, hmagnitude⟩ := Double.exists_magnitudeChars rank
  have htext : (Double.finite negative rank).chars ++ rest =
      Double.signChars negative ++ c :: (more ++ rest) := by
    rw [Double.chars, hmagnitude, List.append_assoc, List.cons_append]
  rw [htext, readScalar_eq_readNumber offset (after?_words_of_isDigit negative hc), ← htext,
    Double.readNumber_chars negative rank offset hrest]

end ReadScalar

end Json

namespace Operand

open Json Text

variable {τ : Type} (codes : τ → List Nat)

def units : Operand τ → Operand (List Nat)
  | .string value => .string (Text.units (codes value))
  | .bool value => .bool value
  | .float value => .float value

def IsJoined : Operand τ → Prop
  | .string value => Text.IsJoined (codes value)
  | .bool _ => True
  | .float _ => True

instance : (op : Operand τ) → Decidable (op.IsJoined codes)
  | .string value => inferInstanceAs (Decidable (Text.IsJoined (codes value)))
  | .bool _ => inferInstanceAs (Decidable True)
  | .float _ => inferInstanceAs (Decidable True)

theorem textWith_units (hcodes : ∀ value, AreCodes (codes value)) (op : Operand τ) :
    (op.units codes).textWith id = op.textWith codes := by
  cases op with
  | string value => exact congrArg String.ofList (asciiChars_units (hcodes value))
  | bool value => rfl
  | float value => rfl

def specials : List (List Char × Double) := [
  ("nan".toList, .nan), ("inf".toList, .infinite false), ("-inf".toList, .infinite true)]

def ofScalar? : Json → Option (Operand (List Nat))
  | .bool value => some (.bool value)
  | .float value => some (.float value)
  | _ => none

/-- The operand at the start of a text, and what follows it. -/
def read? (text : List Char) : Option (Operand (List Nat) × List Char) :=
  if text.head? = some '"' then
    (readUnits 0 [] 1 (.between none) text.tail).toOption.map
      (fun found => (.string found.1, found.2.rest))
  else
    match readScalar ⟨0, text⟩ with
    | .ok (value, next) => (ofScalar? value).map (·, next.rest)
    | .error _ => specials.findSome? (fun w => (after? w.1 text).map (.float w.2, ·))

variable {rest : List Char}

theorem read?_string {value : List Nat} (h : AreCodes value) :
    read? (asciiChars value ++ rest) = some (.string (Text.units value), rest) := by
  have hread := readUnits_flatMap 0 [] 1 rest none h
  rw [read?, asciiChars, List.cons_append, List.cons_append, List.append_assoc,
    List.singleton_append, List.head?_cons, if_pos rfl, List.tail_cons, hread]
  rfl

theorem read?_of_readScalar {text : List Char} {value : Json} {next : Cursor}
    (hquote : text.head? ≠ some '"') (h : readScalar ⟨0, text⟩ = .ok (value, next)) :
    read? text = (ofScalar? value).map (·, next.rest) := by
  rw [read?, if_neg hquote, h]

theorem read?_finite (negative : Bool) (rank : Fin Double.ranks) (hrest : Ends rest) :
    read? ((Double.finite negative rank).chars ++ rest) =
      some (.float (.finite negative rank), rest) := by
  obtain ⟨c, more, hc, hmagnitude⟩ := Double.exists_magnitudeChars rank
  have hquote : ((Double.finite negative rank).chars ++ rest).head? ≠ some '"' := by
    rw [Double.chars, hmagnitude]
    cases negative with
    | false =>
      intro h
      cases Option.some.inj h
      exact absurd hc (by decide)
    | true => exact fun h => absurd (Option.some.inj h) (by decide)
  rw [read?_of_readScalar hquote (readScalar_finite 0 negative rank hrest)]
  rfl

theorem read?_textWith (hcodes : ∀ value, AreCodes (codes value)) (op : Operand τ)
    (hrest : Ends rest) :
    read? ((op.textWith codes).toList ++ rest) = some (op.units codes, rest) := by
  cases op with
  | string value =>
    rw [textWith, Text.ascii, String.toList_ofList]
    exact read?_string (hcodes value)
  | bool value =>
    rw [textWith, read?_of_readScalar (by cases value <;> simp) (readScalar_bool 0 value)]
    rfl
  | float value =>
    rw [textWith, Double.text, String.toList_ofList]
    cases value with
    | nan => rfl
    | infinite negative => cases negative <;> rfl
    | finite negative rank => exact read?_finite negative rank hrest

/-- Where an operand ends can be told from its text. -/
theorem textWith_append_inj (hcodes : ∀ value, AreCodes (codes value)) {a b : Operand τ}
    {r s : List Char} (hr : Ends r) (hs : Ends s)
    (h : (a.textWith codes).toList ++ r = (b.textWith codes).toList ++ s) :
    a.units codes = b.units codes ∧ r = s := by
  have hread := read?_textWith codes hcodes a hr
  rw [h, read?_textWith codes hcodes b hs] at hread
  obtain ⟨hunits, hrest⟩ := Prod.mk.inj (Option.some.inj hread)
  exact ⟨hunits.symm, hrest.symm⟩

theorem units_inj (hinj : Function.Injective codes) (hcodes : ∀ value, AreCodes (codes value))
    {a b : Operand τ} (ha : a.IsJoined codes) (hb : b.IsJoined codes)
    (h : a.units codes = b.units codes) : a = b := by
  cases a with
  | string x =>
    cases b with
    | string y =>
      have hunits := Operand.string.inj h
      rw [hinj (Text.units_inj ha hb (hcodes x) (hcodes y) hunits)]
    | bool y => cases h
    | float y => cases h
  | bool x =>
    cases b with
    | string y => cases h
    | bool y => rw [Operand.bool.inj h]
    | float y => cases h
  | float x =>
    cases b with
    | string y => cases h
    | bool y => cases h
    | float y => rw [Operand.float.inj h]

end Operand

namespace Instruction

open Json Text

variable {τ : Type} (codes : τ → List Nat)

def operandChars (operands : List (Operand τ)) : List Char :=
  operands.flatMap (fun op => ' ' :: (op.textWith codes).toList)

theorem toList_intercalate_space (first : String) (operands : List (Operand τ)) :
    (" ".intercalate (first :: operands.map (Operand.textWith codes))).toList =
      first.toList ++ operandChars codes operands := by
  induction operands generalizing first with
  | nil => rw [List.map_nil, String.intercalate_singleton, operandChars, List.flatMap_nil,
      List.append_nil]
  | cons op operands ih =>
    rw [List.map_cons, String.intercalate_cons_of_ne_nil (List.cons_ne_nil _ _),
      String.toList_append, String.toList_append, ih, List.append_assoc]
    rfl

theorem toList_textWith (i : Instruction τ) :
    (i.textWith codes).toList = i.opcode.name.toList ++ operandChars codes i.operands :=
  toList_intercalate_space codes i.opcode.name i.operands

theorem ends_operandChars (operands : List (Operand τ)) : Ends (operandChars codes operands) := by
  cases operands with
  | nil =>
    intro c hc
    cases hc
  | cons op operands =>
    intro c hc
    cases hc
    decide

theorem units_of_operandChars (hcodes : ∀ value, AreCodes (codes value)) {as bs : List (Operand τ)}
    (h : operandChars codes as = operandChars codes bs) :
    as.map (Operand.units codes) = bs.map (Operand.units codes) := by
  induction as generalizing bs with
  | nil =>
    cases bs with
    | nil => rfl
    | cons b bs => cases h
  | cons a as ih =>
    cases bs with
    | nil => cases h
    | cons b bs =>
      obtain ⟨hunits, hrest⟩ := Operand.textWith_append_inj codes hcodes
        (ends_operandChars codes as) (ends_operandChars codes bs) (List.cons.inj h).2
      rw [List.map_cons, List.map_cons, hunits, ih hrest]

theorem takeWhile_textWith (i : Instruction τ) :
    (i.textWith codes).toList.takeWhile (· != ' ') = i.opcode.name.toList := by
  have hname : i.opcode.name.toList.all (· != ' ') = true := by
    cases i.opcode <;> decide
  have hoperands : (operandChars codes i.operands).takeWhile (· != ' ') = [] := by
    cases i.operands <;> rfl
  rw [toList_textWith, List.takeWhile_append_of_pos (List.all_eq_true.mp hname), hoperands,
    List.append_nil]

theorem textWith_eq_iff (hcodes : ∀ value, AreCodes (codes value)) {a b : Instruction τ} :
    a.textWith codes = b.textWith codes ↔ a.opcode = b.opcode ∧
      a.operands.map (Operand.units codes) = b.operands.map (Operand.units codes) := by
  apply Iff.intro
  · intro h
    have hname : a.opcode.name = b.opcode.name := by
      apply String.toList_inj.mp
      rw [← takeWhile_textWith codes, h, takeWhile_textWith]
    have hopcode : a.opcode = b.opcode := by
      apply Option.some.inj
      rw [← Opcode.ofName?_name, hname, Opcode.ofName?_name]
    refine ⟨hopcode, units_of_operandChars codes hcodes ?_⟩
    have hchars := congrArg String.toList h
    rw [toList_textWith, toList_textWith, hname] at hchars
    exact List.append_cancel_left hchars
  · rintro ⟨hopcode, hoperands⟩
    have htexts : ∀ i : Instruction τ, i.operands.map (Operand.textWith codes) =
        (i.operands.map (Operand.units codes)).map (Operand.textWith id) := by
      intro i
      rw [List.map_map]
      exact List.map_congr_left (fun op _ => (Operand.textWith_units codes hcodes op).symm)
    rw [textWith, textWith, hopcode, htexts, htexts, hoperands]

theorem map_units_eq_iff (hinj : Function.Injective codes)
    (hcodes : ∀ value, AreCodes (codes value)) {as bs : List (Operand τ)}
    (ha : ∀ op ∈ as, op.IsJoined codes) (hb : ∀ op ∈ bs, op.IsJoined codes) :
    as.map (Operand.units codes) = bs.map (Operand.units codes) ↔ as = bs := by
  apply Iff.intro
  · intro h
    induction as generalizing bs with
    | nil => exact (List.map_eq_nil_iff.mp h.symm).symm
    | cons a as ih =>
      cases bs with
      | nil => cases h
      | cons b bs =>
        obtain ⟨ha, has⟩ := List.forall_mem_cons.mp ha
        obtain ⟨hb, hbs⟩ := List.forall_mem_cons.mp hb
        obtain ⟨hunits, h⟩ := List.cons.inj h
        rw [Operand.units_inj codes hinj hcodes ha hb hunits, ih has hbs h]
  · rintro rfl
    rfl

/-- The text of an instruction tells its operation and its operands, strings by their code units. So
what is lost is whether two surrogates in a row are meant, or the one character that they stand
for. -/
theorem text_unambiguous (a b : Instruction Raw) :
    (a.textWith Raw.codes = b.textWith Raw.codes ↔ a.opcode = b.opcode ∧
      a.operands.map (Operand.units Raw.codes) = b.operands.map (Operand.units Raw.codes)) ∧
    ((∀ op ∈ a.operands ++ b.operands, op.IsJoined Raw.codes) →
      (a.textWith Raw.codes = b.textWith Raw.codes ↔
        a.opcode = b.opcode ∧ a.operands = b.operands)) ∧
    ∀ c d : Instruction, c.text = d.text ↔ c.opcode = d.opcode ∧ c.operands = d.operands := by
  have hraw : Function.Injective Raw.codes := 
    List.map_injective_iff.mpr (fun _ _ => Fin.eq_of_val_eq)
  refine ⟨textWith_eq_iff _ areCodes_raw, fun hjoined => ?_, fun c d => ?_⟩
  · obtain ⟨ha, hb⟩ := List.forall_mem_append.mp hjoined
    rw [textWith_eq_iff _ areCodes_raw, map_units_eq_iff _ hraw areCodes_raw ha hb]
  · have hjoined : ∀ op : Operand, op.IsJoined Text.codes := by
      intro op
      cases op with
      | string value => exact isJoined_codes value
      | bool value => trivial
      | float value => trivial
    rw [text, text, textWith_eq_iff _ areCodes_codes, map_units_eq_iff _ codes_injective
      areCodes_codes (fun op _ => hjoined op) (fun op _ => hjoined op)]

def lineOf (operands : List Raw) : Instruction Raw := ⟨.runLine, operands.map .string⟩

theorem text_unambiguous_lone :
    (∀ op ∈ (lineOf [[0xde00, 0xd83d]]).operands ++ (lineOf [[0xd83d], [0xde00]]).operands,
      op.IsJoined Raw.codes) ∧
    (lineOf [[0xde00, 0xd83d]]).textWith Raw.codes ≠
      (lineOf [[0xd83d], [0xde00]]).textWith Raw.codes := by
  have hjoined : ∀ op ∈ (lineOf [[0xde00, 0xd83d]]).operands ++
      (lineOf [[0xd83d], [0xde00]]).operands, op.IsJoined Raw.codes := by decide
  refine ⟨hjoined, fun h => ?_⟩
  exact absurd (((text_unambiguous _ _).2.1 hjoined).mp h).2 (by decide)

/-- A character beyond the sixteen-bit range is written as the pair of its surrogates is. -/
theorem text_of_pair_eq :
    (lineOf [[0x1f600]]).textWith Raw.codes = (lineOf [[0xd83d, 0xde00]]).textWith Raw.codes ∧
      (lineOf [[0x1f600]]).operands ≠ (lineOf [[0xd83d, 0xde00]]).operands := by
  decide +kernel

-- A string with a quote and a space is told from two strings.
example : text ⟨.runLine, [.string "a\" \"b"]⟩ ≠ text ⟨.runLine, [.string "a", .string "b"]⟩ := by
  decide +kernel

end Instruction

end DialogueFlow
