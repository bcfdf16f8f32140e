import Coio.JsonRpc.Completeness
import Coio.Lib.Transition

namespace Coio.JsonRpc
open Grammar
set_option autoImplicit true

/-- The characters that have an escape sequence of their own. -/
def escaped : Bytes := [quote, backslash, 0x08, 0x0c, 0x0a, 0x0d, 0x09]

/-- `dump` writes the character in a form that the parser reads. -/
def Platform.plain (P : Platform F) (ch : UInt8) : Bool :=
  ch ∈ escaped || 0x20 ≤ P.int ch

/-- What `std::to_string` makes of the numbers that are not finite. -/
def not_finite : List Bytes :=
  [text ['i', 'n', 'f'], text ['-', 'i', 'n', 'f'], text ['n', 'a', 'n'], text ['-', 'n', 'a', 'n']]

/-- `std::to_string` writes a finite number with a fraction and without an exponent. -/
def Platform.Standard (P : Platform F) : Prop := ∀ x, P.to_string x ∈ not_finite ∨
  ∃ sign ip ds, Sign sign ∧ IntegerPart ip ∧ Digits ds ∧
    P.to_string x = sign ++ ip ++ char '.' :: ds

def Platform.reread_number (P : Platform F) : Number F → Option (Number F)
  | .integer n => some (.integer n)
  | .floating x =>
    if P.to_string x ∈ not_finite then none else (P.from_chars (P.to_string x)).map .floating

mutual

/-- What the parser makes of the text of a value. -/
def Platform.reread (P : Platform F) : Value F → Option (Value F)
  | .null => some .null
  | .boolean b => some (.boolean b)
  | .number x => (P.reread_number x).map .number
  | .string s => if s.all P.plain = true then some (.string s) else none
  | .array arr => (P.reread_array arr).map .array
  | .object obj => (P.reread_object obj).map fun ms =>
      .object (ms.foldl (fun ms m => insert_or_assign ms m.1 m.2) [])

def Platform.reread_array (P : Platform F) : List (Value F) → Option (List (Value F))
  | [] => some []
  | v :: vs => (P.reread v).bind fun v => (P.reread_array vs).map fun vs => v :: vs

def Platform.reread_object (P : Platform F) :
    List (Bytes × Value F) → Option (List (Bytes × Value F))
  | [] => some []
  | (k, v) :: ms => if k.all P.plain = true then
      (P.reread v).bind fun v => (P.reread_object ms).map fun ms => (k, v) :: ms
    else none

end

section Numerals

theorem char_toNat {c : Char} (h : c.toNat < 256) : (char c).toNat = c.toNat := by
  rw [char, Char.toUInt8, UInt32.toNat_toUInt8]
  exact Nat.mod_eq_of_lt h

theorem isDigit_toNat {c : Char} (h : c.isDigit = true) : 48 ≤ c.toNat ∧ c.toNat ≤ 57 :=
  Char.isDigit_iff_toNat.1 h

theorem is_digit_char {c : Char} (h : c.isDigit = true) : is_digit (char c) = true := by
  have hc := isDigit_toNat h
  rw [is_digit_iff, char_toNat (by omega)]
  exact hc

theorem digits_value_text {cs : List Char} (h : ∀ c ∈ cs, c.isDigit = true) :
    digits_value (text cs) = Nat.ofDigitChars 10 cs 0 := by
  have hfold : ∀ n, (text cs).foldl (fun n d => 10 * n + (d.toNat - (char '0').toNat)) n =
      cs.foldl (fun n c => 10 * n + (c.toNat - '0'.toNat)) n := by
    induction cs with
    | nil => exact fun n => rfl
    | cons c cs ih =>
      intro n
      have hc := isDigit_toNat (h c (.head _))
      have hvalue : (char c).toNat = c.toNat := char_toNat (by omega)
      rw [text, List.map_cons, List.foldl_cons, List.foldl_cons, hvalue]
      exact ih (fun c hc => h c (.tail _ hc)) _
  rw [digits_value, hfold, Nat.ofDigitChars_eq_foldl]

/-- A numeral has no leading zero. -/
theorem toDigits_head (n : Nat) : Nat.toDigits 10 n = ['0'] ∨
    ∃ d ds, Nat.toDigits 10 n = d :: ds ∧ d ≠ '0' := by
  induction n using Nat.strongRecOn with
  | _ n ih =>
    by_cases hn : n < 10
    · rw [Nat.toDigits_of_lt_base hn]
      by_cases hzero : n = 0
      · exact .inl (by rw [hzero]; rfl)
      · have hdigit : ∀ n < 10, n ≠ 0 → n.digitChar ≠ '0' := by decide
        exact .inr ⟨_, _, rfl, hdigit n hn hzero⟩
    · rw [Nat.toDigits_of_base_le (by decide) (by omega)]
      rcases ih (n / 10) (by omega) with hd | ⟨d, ds, hd, hne⟩
      · have hvalue : n / 10 = Nat.ofDigitChars 10 ['0'] 0 := by
          rw [← hd, Nat.ofDigitChars_ten_toDigits]
        exact absurd (show n / 10 = 0 from hvalue) (by omega)
      · rw [hd]
        exact .inr ⟨d, ds ++ _, rfl, hne⟩

theorem integer_part_digits (n : Nat) : IntegerPart (text (Nat.toDigits 10 n)) := by
  have hdigits : ∀ c ∈ Nat.toDigits 10 n, c.isDigit = true := fun c hc =>
    Nat.isDigit_of_mem_toDigits (by decide) (by decide) hc
  rcases toDigits_head n with hd | ⟨d, ds, hd, hne⟩
  · rw [hd]
    exact .zero
  · rw [hd] at hdigits ⊢
    have hrange := isDigit_toNat (hdigits d (.head _))
    have hvalue : (char d).toNat = d.toNat := char_toNat (by omega)
    have hzero : d.toNat ≠ 48 := fun h => hne (Char.toNat_inj.1 h)
    refine .digits ⟨?_, ?_⟩ fun b hb => ?_
    · rw [UInt8.le_iff_toNat_le, hvalue]
      exact Nat.lt_of_le_of_ne hrange.1 hzero.symm
    · rw [UInt8.le_iff_toNat_le, hvalue]
      exact hrange.2
    · obtain ⟨c, hc, rfl⟩ := List.mem_map.1 hb
      exact is_digit_char (hdigits c (.tail _ hc))

theorem digits_value_digits (n : Nat) : digits_value (text (Nat.toDigits 10 n)) = n := by
  rw [digits_value_text fun c hc => Nat.isDigit_of_mem_toDigits (by decide) (by decide) hc,
    Nat.ofDigitChars_ten_toDigits]

/-- Every integer is read back. -/
theorem to_string_integer (P : Platform F) (n : Int64) :
    NumberText P (Int64.to_string n) (.integer n) := by
  have hrange : Int64.minValue.toInt ≤ n.toInt ∧ n.toInt ≤ Int64.maxValue.toInt :=
    ⟨n.minValue_le_toInt, n.toInt_le⟩
  have hdigits := integer_part_digits n.toInt.natAbs
  rw [Int64.to_string]
  by_cases hneg : n.toInt < 0
  · have hvalue : -(digits_value (text (Nat.toDigits 10 n.toInt.natAbs)) : Int) = n.toInt := by
      rw [digits_value_digits]
      omega
    rw [if_pos hneg]
    refine .integer .minus hdigits ?_
    rw [List.singleton_append, from_chars_integer]
    rw [if_pos rfl, hvalue, if_pos hrange, Int64.ofInt_toInt]
  · rw [if_neg hneg]
    refine .integer .none hdigits ?_
    obtain ⟨d, ds, hd, -, hminus⟩ := hdigits.head
    have hvalue : (digits_value (d :: ds) : Int) = n.toInt := by
      rw [← hd, digits_value_digits]
      omega
    rw [List.nil_append, hd, from_chars_integer]
    rw [if_neg hminus, hvalue, if_pos hrange, Int64.ofInt_toInt]

end Numerals

section Strings

theorem Characters.append (h : Characters t s) (h' : Characters t' s') :
    Characters (t ++ t') (s ++ s') := by
  induction h with
  | nil => exact h'
  | plain hq hc hb ht ih => exact .plain hq hc hb ih
  | escaped he ht ih => exact .escaped he ih

variable {P : Platform F} {s : Bytes}

theorem escape_of_not_mem (h : ch ∉ escaped) :
    P.escape ch =
      if P.int ch < 0x20 then backslash :: char 'u' :: format_04x (P.int ch) else [ch] := by
  simp only [escaped, List.mem_cons, List.not_mem_nil, or_false, not_or] at h
  obtain ⟨h₁, h₂, h₃, h₄, h₅, h₆, h₇⟩ := h
  rw [Platform.escape, if_neg h₁, if_neg h₂, if_neg h₃, if_neg h₄, if_neg h₅, if_neg h₆, if_neg h₇]

theorem escape_plain (h : P.plain ch = true) : Characters (P.escape ch) [ch] := by
  by_cases hch : ch ∈ escaped
  · have hescaped : ∀ e ch, unescape e = .ok ch → Characters [backslash, e] [ch] :=
      fun e ch he => .escaped he .nil
    simp only [escaped, List.mem_cons, List.not_mem_nil, or_false] at hch
    rcases hch with rfl | rfl | rfl | rfl | rfl | rfl | rfl
    · exact hescaped quote _ rfl
    · exact hescaped backslash _ rfl
    · exact hescaped (char 'b') _ rfl
    · exact hescaped (char 'f') _ rfl
    · exact hescaped (char 'n') _ rfl
    · exact hescaped (char 'r') _ rfl
    · exact hescaped (char 't') _ rfl
  · have hint : 0x20 ≤ P.int ch := by
      rw [Platform.plain, Bool.or_eq_true, decide_eq_true_iff, decide_eq_true_iff] at h
      exact h.resolve_left hch
    rw [escape_of_not_mem hch, if_neg (by omega)]
    simp only [escaped, List.mem_cons, List.not_mem_nil, or_false, not_or] at hch
    refine .plain hch.1 (fun hc => ?_) hch.2.1 .nil
    have hlt : ch.toNat < 32 := hc
    unfold Platform.int at hint
    split at hint
    · omega
    · omega

theorem escape_not_plain (h : P.plain ch = false) :
    ∃ r, P.escape ch = backslash :: char 'u' :: r := by
  rw [Platform.plain, Bool.or_eq_false_iff, decide_eq_false_iff_not, decide_eq_false_iff_not] at h
  exact ⟨_, (escape_of_not_mem h.1).trans (if_pos (by omega))⟩

theorem characters_escape (h : s.all P.plain = true) : Characters (s.flatMap P.escape) s := by
  induction s with
  | nil => exact .nil
  | cons ch s ih =>
    rw [List.all_cons, Bool.and_eq_true] at h
    exact (escape_plain h.1).append (ih h.2)

/-- The parser does not read the escape sequence that a character without one of its own gets. -/
theorem parse_characters_error (h : s.all P.plain = false) (result rest : Bytes) :
    ∃ e, parse_characters result (s.flatMap P.escape ++ rest) = .error e := by
  induction s generalizing result with
  | nil => cases h
  | cons ch s ih =>
    rw [List.flatMap_cons, List.append_assoc]
    cases hch : P.plain ch with
    | true =>
      rw [List.all_cons, hch, Bool.true_and] at h
      rw [parse_characters_append (escape_plain hch)]
      exact ih h _
    | false =>
      obtain ⟨r, hr⟩ := escape_not_plain hch
      rw [hr, List.cons_append, List.cons_append, parse_characters.eq_def]
      exact ⟨_, rfl⟩

theorem parse_string_error (h : s.all P.plain = false) (rest : Bytes) :
    ∃ e, parse_string_ (P.escape_string s ++ rest) = .error e := by
  obtain ⟨e, he⟩ := parse_characters_error h [] ([quote] ++ rest)
  refine ⟨e, ?_⟩
  rw [Platform.escape_string, List.append_assoc, List.cons_append, parse_string_,
    if_neg (not_not.2 rfl)]
  exact he

end Strings

section Texts

variable {F : Type} {P : Platform F}

theorem dump_array_cons (v : Value F) (vs : List (Value F)) (hne : vs ≠ []) :
    P.dump_array true (v :: vs) = P.dump v ++ char ',' :: P.dump_array true vs := by
  cases vs with
  | nil => exact absurd rfl hne
  | cons w ws => simp only [Platform.dump_array, comma, if_true, Bool.false_eq_true, if_false,
      List.nil_append, List.cons_append]

theorem dump_array_singleton (v : Value F) : P.dump_array true [v] = P.dump v := by
  simp only [Platform.dump_array, comma, if_true, List.nil_append, List.append_nil]

theorem dump_object_cons (k : Bytes) (v : Value F) (ms : List (Bytes × Value F)) (hne : ms ≠ []) :
    P.dump_object true ((k, v) :: ms) =
      P.escape_string k ++ char ':' :: P.dump v ++ char ',' :: P.dump_object true ms := by
  cases ms with
  | nil => exact absurd rfl hne
  | cons m ms => simp only [Platform.dump_object, comma, if_true, Bool.false_eq_true, if_false,
      List.nil_append, List.cons_append, List.append_assoc]

theorem dump_object_singleton (k : Bytes) (v : Value F) :
    P.dump_object true [(k, v)] = P.escape_string k ++ char ':' :: P.dump v := by
  simp only [Platform.dump_object, comma, if_true, List.nil_append, List.append_nil]

theorem member_dump (hk : k.all P.plain = true) (ht : Text P t v) :
    Member (Padded is_space (Text P)) (P.escape_string k ++ char ':' :: t) (k, v) := by
  have hm : Member (Padded is_space (Text P))
      ([] ++ quote :: k.flatMap P.escape ++ quote :: [] ++ char ':' :: t) (k, v) :=
    .mk nofun (characters_escape hk) nofun (.of ht)
  exact hm

theorem text_number (hP : P.Standard) (h : P.reread_number x = some y) :
    NumberText P (P.dump_number x) y := by
  cases x with
  | integer n =>
    cases h
    exact to_string_integer P n
  | floating x =>
    obtain ⟨hfinite, h⟩ := Option.ite_none_left_eq_some.1 h
    obtain ⟨y, hy, rfl⟩ := Option.map_eq_some_iff.1 h
    obtain ⟨sign, ip, ds, hs, hi, hd, htext⟩ := (hP x).resolve_left hfinite
    have hnumber := NumberText.floating hs hi (.digits hd) .none (.inl (List.cons_ne_nil _ _))
      (P := P) (x := y)
    rw [List.append_nil, ← htext] at hnumber
    exact hnumber hy

mutual

theorem text_dump (hP : P.Standard) :
    ∀ v v', P.reread v = some v' → Text P (P.dump v) v'
  | .null, v', h => by
    cases h
    exact .null
  | .boolean true, v', h => by
    cases h
    exact .boolean_true
  | .boolean false, v', h => by
    cases h
    exact .boolean_false
  | .number x, v', h => by
    obtain ⟨y, hy, rfl⟩ := Option.map_eq_some_iff.1 h
    exact .number (text_number hP hy)
  | .string s, v', h => by
    obtain ⟨hs, rfl⟩ := Transition.enabled_iff.1 h
    exact .string (characters_escape hs)
  | .array [], v', h => by
    cases h
    exact .empty_array (w := []) nofun
  | .array (v :: vs), v', h => by
    obtain ⟨vs', hvs, rfl⟩ := Option.map_eq_some_iff.1 h
    exact .array (elements_dump hP (v :: vs) vs' (List.cons_ne_nil _ _) hvs)
  | .object [], v', h => by
    cases h
    exact .empty_object (w := []) nofun
  | .object (m :: ms), v', h => by
    obtain ⟨ms', hms, rfl⟩ := Option.map_eq_some_iff.1 h
    exact .object (members_dump hP (m :: ms) ms' (List.cons_ne_nil _ _) hms)

theorem elements_dump (hP : P.Standard) : ∀ vs vs', vs ≠ [] → P.reread_array vs = some vs' →
    Separated (char ',') (Padded is_space (Text P)) (P.dump_array true vs) vs'
  | [], _, hne, _ => absurd rfl hne
  | [v], vs', _, h => by
    obtain ⟨v', hv, h⟩ := Option.bind_eq_some_iff.1 h
    cases h
    rw [dump_array_singleton]
    exact .single (.of (text_dump hP v v' hv))
  | v :: w :: ws, vs', _, h => by
    obtain ⟨v', hv, h⟩ := Option.bind_eq_some_iff.1 h
    obtain ⟨ws', hws, rfl⟩ := Option.map_eq_some_iff.1 h
    rw [dump_array_cons _ _ (List.cons_ne_nil _ _)]
    exact .cons (.of (text_dump hP v v' hv))
      (elements_dump hP (w :: ws) ws' (List.cons_ne_nil _ _) hws)

theorem members_dump (hP : P.Standard) : ∀ ms ms', ms ≠ [] → P.reread_object ms = some ms' →
    Separated (char ',') (Member (Padded is_space (Text P))) (P.dump_object true ms) ms'
  | [], _, hne, _ => absurd rfl hne
  | [(k, v)], ms', _, h => by
    obtain ⟨hk, h⟩ := Option.ite_none_right_eq_some.1 h
    obtain ⟨v', hv, h⟩ := Option.bind_eq_some_iff.1 h
    cases h
    rw [dump_object_singleton]
    exact .single (member_dump hk (text_dump hP v v' hv))
  | (k, v) :: m :: ms, ms', _, h => by
    obtain ⟨hk, h⟩ := Option.ite_none_right_eq_some.1 h
    obtain ⟨v', hv, h⟩ := Option.bind_eq_some_iff.1 h
    obtain ⟨ms', hms, rfl⟩ := Option.map_eq_some_iff.1 h
    rw [dump_object_cons _ _ _ (List.cons_ne_nil _ _)]
    exact .cons (member_dump hk (text_dump hP v v' hv))
      (members_dump hP (m :: ms) ms' (List.cons_ne_nil _ _) hms)

end

theorem dump_head (hP : P.Standard) (v : Value F) :
    ∃ ch r, P.dump v = ch :: r ∧ is_space ch = false ∧ ch ≠ char ']' ∧ ch ≠ rbrace := by
  cases v with
  | boolean b => cases b <;> exact ⟨_, _, rfl, by decide, by decide, by decide⟩
  | number x =>
    cases x with
    | integer n => exact (Text.number (to_string_integer P n)).head
    | floating x =>
      rcases hP x with h | ⟨sign, ip, ds, hs, hi, -, h⟩
      · simp only [not_finite, List.mem_cons, List.not_mem_nil, or_false] at h
        rcases h with h | h | h | h <;>
        · rw [Platform.dump, Platform.dump_number, h]
          exact ⟨_, _, rfl, by decide, by decide, by decide⟩
      · obtain ⟨ch, r, hch, hnumber⟩ := hs.head hi
        rw [Platform.dump, Platform.dump_number, h, hch]
        exact ⟨ch, _, rfl, number_char hnumber⟩
  | _ => exact ⟨_, _, rfl, by decide, by decide, by decide⟩

/-- The parser does not read the numbers that are not finite. -/
theorem parse_not_finite (h : t ∈ not_finite) (n : Nat) (rest : Bytes) :
    ∃ e, P.parse_value_ (n + 1) (t ++ rest) = .error e := by
  simp only [not_finite, List.mem_cons, List.not_mem_nil, or_false] at h
  rcases h with rfl | rfl | rfl | rfl <;>
  · rw [Platform.parse_value_, text, List.map_cons, List.cons_append, skip_cons _ (by decide)]
    exact ⟨_, rfl⟩

theorem parse_floating_error (hP : P.Standard) (h : P.reread_number (.floating x) = none)
    (n : Nat) (hs : Stops rest) :
    ∃ e, P.parse_value_ (n + 1) (P.to_string x ++ rest) = .error e := by
  by_cases hfinite : P.to_string x ∈ not_finite
  · exact parse_not_finite hfinite n rest
  · obtain ⟨sign, ip, ds, hsign, hi, hd, htext⟩ := (hP x).resolve_left hfinite
    rw [Platform.reread_number, if_neg hfinite, Option.map_eq_none_iff, htext] at h
    obtain ⟨ch, r, hch, hnumber⟩ := hsign.head hi
    have hread := parse_number_read P hsign hi (.digits hd) .none hs
    rw [List.append_nil, if_pos (.inl (List.cons_ne_nil _ _)), h] at hread
    rw [htext]
    rw [hch] at hread ⊢
    rw [List.cons_append, List.cons_append, parse_value_number hnumber]
    exact ⟨_, hread⟩

theorem error_bind (e : ε) (f : α → Except ε β) : ((.error e : Except ε α) >>= f) = .error e := rfl

theorem parse_elements_error (h : P.parse_value_ n source = .error e) (fuel : Nat)
    (result : List (Value F)) : parse_elements (P.parse_value_ n) (fuel + 1) result
      (skip_white_spaces_ source) = .error e := by
  rw [parse_elements, parse_value_skip, h, error_bind]

theorem skip_escape_string (k rest : Bytes) :
    skip_white_spaces_ (P.escape_string k ++ rest) = P.escape_string k ++ rest := by
  rw [Platform.escape_string, List.append_assoc, List.cons_append]
  exact skip_cons _ (by decide)

theorem parse_members_key_error (h : k.all P.plain = false) (fuel : Nat)
    (result : List (Bytes × Value F)) (rest : Bytes) :
    ∃ e, parse_members (P.parse_value_ n) (fuel + 1) result
      (skip_white_spaces_ (P.escape_string k ++ rest)) = .error e := by
  obtain ⟨e, he⟩ := parse_string_error h rest
  refine ⟨e, ?_⟩
  rw [skip_escape_string]
  rw [Platform.escape_string, List.append_assoc, List.cons_append] at he ⊢
  rw [parse_members.eq_def]
  dsimp only
  rw [if_neg (not_not.2 rfl), he, error_bind]

theorem parse_members_value_error (hk : k.all P.plain = true)
    (h : P.parse_value_ n source = .error e) (fuel : Nat) (result : List (Bytes × Value F)) :
    parse_members (P.parse_value_ n) (fuel + 1) result
      (skip_white_spaces_ (P.escape_string k ++ char ':' :: source)) = .error e := by
  have hkey := parse_string_append (characters_escape hk) (char ':' :: source)
  rw [skip_escape_string, Platform.escape_string, List.append_assoc, List.cons_append,
    parse_members.eq_def]
  dsimp only
  rw [if_neg (not_not.2 rfl), List.singleton_append, hkey, ok_bind]
  dsimp only
  rw [skip_cons _ (by decide)]
  dsimp only
  rw [if_neg (not_not.2 rfl), parse_value_skip, h, error_bind]

theorem skip_dump_array (hP : P.Standard) (v : Value F) (vs : List (Value F)) (rest : Bytes) :
    ∃ ch r, skip_white_spaces_ (P.dump_array true (v :: vs) ++ rest) = ch :: r ∧
      ch ≠ char ']' := by
  obtain ⟨ch, r, hch, hspace, hbracket, -⟩ := dump_head hP v
  rw [Platform.dump_array, comma, if_pos rfl, List.nil_append, hch]
  exact ⟨ch, _, skip_cons _ hspace, hbracket⟩

theorem skip_dump_object (m : Bytes × Value F) (ms : List (Bytes × Value F)) (rest : Bytes) :
    ∃ r, skip_white_spaces_ (P.dump_object true (m :: ms) ++ rest) = quote :: r := by
  rw [Platform.dump_object, comma, if_pos rfl, List.nil_append, List.append_assoc,
    List.append_assoc, skip_escape_string, Platform.escape_string]
  exact ⟨_, rfl⟩

mutual

theorem dump_error (hP : P.Standard) : ∀ v n rest, P.reread v = none → (P.dump v).length < n →
    Stops rest → ∃ e, P.parse_value_ n (P.dump v ++ rest) = .error e
  | _, 0, _, _, hn, _ => absurd hn (Nat.not_lt_zero _)
  | .null, n + 1, _, h, _, _ => nomatch h
  | .boolean _, n + 1, _, h, _, _ => nomatch h
  | .number (.integer _), n + 1, _, h, _, _ => nomatch h
  | .number (.floating x), n + 1, rest, h, _, hs =>
    parse_floating_error hP (Option.map_eq_none_iff.1 h) n hs
  | .string s, n + 1, rest, h, _, _ => by
    have hplain : s.all P.plain = false := Bool.eq_false_iff.2 fun hs => by
      rw [Platform.reread, if_pos hs] at h
      cases h
    obtain ⟨e, he⟩ := parse_string_error hplain rest
    refine ⟨e, ?_⟩
    rw [Platform.dump]
    rw [Platform.escape_string, List.append_assoc, List.cons_append] at he ⊢
    rw [parse_value_quote, he, error_bind]
  | .array [], n + 1, _, h, _, _ => nomatch h
  | .array (v :: vs), n + 1, rest, h, hn, _ => by
    have hlen : (P.dump_array true (v :: vs)).length < n := by
      simp only [Platform.dump, List.length_append, List.length_cons, List.length_nil] at hn
      omega
    have hvs := elements_error hP (v :: vs) n
    obtain ⟨ch, r, hskip, hch⟩ := skip_dump_array hP v vs (char ']' :: rest)
    obtain ⟨e, he⟩ := hvs (r.length + 1) [] rest (Option.map_eq_none_iff.1 h) hlen
    rw [hskip] at he
    refine ⟨e, ?_⟩
    rw [Platform.dump, List.append_assoc, List.cons_append, parse_value_bracket, parse_array_,
      List.singleton_append, hskip]
    dsimp only
    rw [if_neg hch, he, error_bind]
  | .object [], n + 1, _, h, _, _ => nomatch h
  | .object (m :: ms), n + 1, rest, h, hn, _ => by
    have hlen : (P.dump_object true (m :: ms)).length < n := by
      simp only [Platform.dump, List.length_append, List.length_cons, List.length_nil] at hn
      omega
    have hms := members_error hP (m :: ms) n
    obtain ⟨r, hskip⟩ := skip_dump_object (P := P) m ms (rbrace :: rest)
    obtain ⟨e, he⟩ := hms (r.length + 1) [] rest (Option.map_eq_none_iff.1 h) hlen
    rw [hskip] at he
    refine ⟨e, ?_⟩
    rw [Platform.dump, List.append_assoc, List.cons_append, parse_value_brace, parse_object_,
      List.singleton_append, hskip]
    dsimp only
    rw [if_neg (by decide), he, error_bind]

theorem elements_error (hP : P.Standard) : ∀ vs n fuel result rest, P.reread_array vs = none →
    (P.dump_array true vs).length < n → ∃ e, parse_elements (P.parse_value_ n) fuel result
      (skip_white_spaces_ (P.dump_array true vs ++ char ']' :: rest)) = .error e
  | _, _, 0, _, _, _, _ => ⟨_, rfl⟩
  | [], _, fuel + 1, _, _, h, _ => nomatch h
  | [v], n, fuel + 1, result, rest, h, hn => by
    have hv : P.reread v = none := by
      cases hv : P.reread v with
      | none => rfl
      | some v' =>
        rw [Platform.reread_array, hv] at h
        cases h
    have hstop : Stops (char ']' :: rest) := .cons (.inr (.inr (.inl rfl)))
    rw [dump_array_singleton] at hn ⊢
    obtain ⟨e, he⟩ := dump_error hP v n _ hv hn hstop
    exact ⟨e, parse_elements_error he fuel result⟩
  | v :: w :: ws, n, fuel + 1, result, rest, h, hn => by
    rw [dump_array_cons _ _ (List.cons_ne_nil _ _)] at hn ⊢
    have hlen : (P.dump v).length < n ∧ (P.dump_array true (w :: ws)).length < n := by
      simp only [List.length_append, List.length_cons] at hn
      omega
    rw [List.append_assoc, List.cons_append]
    cases hv : P.reread v with
    | none =>
      have hstop : Stops (char ',' :: (P.dump_array true (w :: ws) ++ char ']' :: rest)) :=
        .cons (.inr (.inl rfl))
      obtain ⟨e, he⟩ := dump_error hP v n _ hv hlen.1 hstop
      exact ⟨e, parse_elements_error he fuel result⟩
    | some v' =>
      have hws : P.reread_array (w :: ws) = none := by
        rw [Platform.reread_array, hv] at h
        exact Option.map_eq_none_iff.1 h
      obtain ⟨ch, r, hskip, hch⟩ := skip_dump_array hP w ws (char ']' :: rest)
      rw [parse_elements_comma (parse_value_complete P n) (.of (text_dump hP v v' hv)) hlen.1
        hskip hch, ← hskip]
      exact elements_error hP (w :: ws) n fuel (result ++ [v']) rest hws hlen.2

theorem members_error (hP : P.Standard) : ∀ ms n fuel result rest, P.reread_object ms = none →
    (P.dump_object true ms).length < n → ∃ e, parse_members (P.parse_value_ n) fuel result
      (skip_white_spaces_ (P.dump_object true ms ++ rbrace :: rest)) = .error e
  | _, _, 0, _, _, _, _ => ⟨_, rfl⟩
  | [], _, fuel + 1, _, _, h, _ => nomatch h
  | [(k, v)], n, fuel + 1, result, rest, h, hn => by
    rw [dump_object_singleton] at hn ⊢
    cases hk : k.all P.plain with
    | false =>
      rw [List.append_assoc]
      exact parse_members_key_error hk fuel result _
    | true =>
      have hv : P.reread v = none := by
        cases hv : P.reread v with
        | none => rfl
        | some v' =>
          rw [Platform.reread_object, if_pos hk, hv] at h
          cases h
      have hlen : (P.dump v).length < n := by
        simp only [List.length_append, List.length_cons] at hn
        omega
      have hstop : Stops (rbrace :: rest) := .cons (.inr (.inr (.inr rfl)))
      obtain ⟨e, he⟩ := dump_error hP v n _ hv hlen hstop
      rw [List.append_assoc, List.cons_append]
      exact ⟨e, parse_members_value_error hk he fuel result⟩
  | (k, v) :: m :: ms, n, fuel + 1, result, rest, h, hn => by
    rw [dump_object_cons _ _ _ (List.cons_ne_nil _ _)] at hn ⊢
    have hlen : (P.escape_string k ++ char ':' :: P.dump v).length < n ∧ (P.dump v).length < n ∧
        (P.dump_object true (m :: ms)).length < n := by
      simp only [List.length_append, List.length_cons] at hn ⊢
      omega
    rw [List.append_assoc, List.cons_append]
    cases hk : k.all P.plain with
    | false =>
      rw [List.append_assoc]
      exact parse_members_key_error hk fuel result _
    | true =>
      rw [Platform.reread_object, if_pos hk] at h
      cases hv : P.reread v with
      | none =>
        have hstop : Stops (char ',' :: (P.dump_object true (m :: ms) ++ rbrace :: rest)) :=
          .cons (.inr (.inl rfl))
        obtain ⟨e, he⟩ := dump_error hP v n _ hv hlen.2.1 hstop
        rw [List.append_assoc, List.cons_append]
        exact ⟨e, parse_members_value_error hk he fuel result⟩
      | some v' =>
        have hms : P.reread_object (m :: ms) = none := by
          rw [hv] at h
          exact Option.map_eq_none_iff.1 h
        obtain ⟨r, hskip⟩ := skip_dump_object (P := P) m ms (rbrace :: rest)
        rw [parse_members_comma (parse_value_complete P n)
          (member_dump hk (text_dump hP v v' hv)) hlen.1 hskip (by decide), ← hskip]
        exact members_error hP (m :: ms) n fuel (insert_or_assign result k v') rest hms hlen.2.2

end

/-- The parser reads the text of a value as `reread` says, and refuses it where `reread` has
nothing. -/
theorem parse_dump (hP : P.Standard) : P.parse (P.dump v) = .ok v' ↔ P.reread v = some v' := by
  have hread : ∀ w, P.reread v = some w → P.parse (P.dump v) = .ok w := fun w h =>
    ((parse_grammar P _).1 w).2 (.of (text_dump hP v w h))
  refine ⟨fun h => ?_, hread v'⟩
  cases hv : P.reread v with
  | none =>
    obtain ⟨e, he⟩ := dump_error hP v _ [] hv (Nat.lt_succ_self _) .nil
    rw [List.append_nil] at he
    rw [Platform.parse, he] at h
    cases h
  | some w =>
    rw [hread w hv] at h
    cases h
    rfl

end Texts

end Coio.JsonRpc
