import Coio.JsonRpc.Grammar
import Mathlib.Data.List.DropRight

namespace Coio.JsonRpc
open Grammar
set_option autoImplicit true

def NoDigit (rest : Bytes) : Prop := ∀ ch r, rest = ch :: r → is_digit ch = false

/-- What follows a value in a text. -/
def Stops (rest : Bytes) : Prop := ∀ ch r, rest = ch :: r →
  is_space ch = true ∨ ch = char ',' ∨ ch = char ']' ∨ ch = rbrace

theorem Stops.cons (h : is_space ch = true ∨ ch = char ',' ∨ ch = char ']' ∨ ch = rbrace) :
    Stops (ch :: rest) := fun _ _ he => by
  cases he
  exact h

theorem Stops.nil : Stops [] := nofun

theorem Stops.spaces (hw : Spaces w) (h : Stops rest) : Stops (w ++ rest) := by
  cases w with
  | nil => exact h
  | cons ch w => exact .cons (.inl (hw ch (.head _)))

theorem is_digit_iff (ch : UInt8) : is_digit ch = true ↔ 48 ≤ ch.toNat ∧ ch.toNat ≤ 57 := by
  rw [is_digit, Bool.and_eq_true, decide_eq_true_iff, decide_eq_true_iff]
  exact .rfl

theorem is_space_iff (ch : UInt8) :
    is_space ch = true ↔ ch = 0x20 ∨ 9 ≤ ch.toNat ∧ ch.toNat ≤ 13 := by
  rw [is_space, Bool.or_eq_true, Bool.and_eq_true, decide_eq_true_iff, decide_eq_true_iff,
    decide_eq_true_iff]
  exact .rfl

/-- No character that follows a value continues a number. -/
theorem stop_iff (ch : UInt8) (h : is_space ch = true ∨ ch = char ',' ∨ ch = char ']' ∨
    ch = rbrace) : is_digit ch = false ∧ ch ≠ char '.' ∧ ch ≠ char 'e' ∧ ch ≠ char 'E' := by
  rcases h with h | rfl | rfl | rfl
  · refine ⟨Bool.eq_false_iff.2 fun hd => ?_, ?_, ?_, ?_⟩
    · have hdigit := (is_digit_iff ch).1 hd
      rcases (is_space_iff ch).1 h with rfl | hspace
      · exact absurd hd (by decide)
      · omega
    all_goals
      rintro rfl
      exact absurd h (by decide)
  all_goals decide

theorem Stops.noDigit (h : Stops rest) : NoDigit rest :=
  fun ch r he => (stop_iff ch (h ch r he)).1

theorem takeWhile_digits (hds : ∀ d ∈ ds, is_digit d = true) (h : NoDigit rest) :
    (ds ++ rest).takeWhile is_digit = ds ∧ (ds ++ rest).dropWhile is_digit = rest := by
  rw [List.takeWhile_append_of_pos hds, List.dropWhile_append_of_pos hds]
  cases rest with
  | nil => exact ⟨List.append_nil ds, rfl⟩
  | cons ch rest =>
    have hch : ¬ is_digit ch = true := by rw [h ch rest rfl]; rintro ⟨⟩
    rw [List.takeWhile_cons_of_neg hch, List.dropWhile_cons_of_neg hch]
    exact ⟨List.append_nil ds, rfl⟩

theorem skip_append (hw : Spaces w) : skip_white_spaces_ (w ++ rest) = skip_white_spaces_ rest :=
  List.dropWhile_append_of_pos hw

theorem skip_cons (rest : Bytes) (h : is_space ch = false) :
    skip_white_spaces_ (ch :: rest) = ch :: rest :=
  List.dropWhile_cons_of_neg (by rw [h]; rintro ⟨⟩)

theorem next_n_characters_are_append (str rest : Bytes) :
    next_n_characters_are_ str (str ++ rest) = (true, rest) := by
  induction str with
  | nil => cases rest <;> rfl
  | cons chr str ih => rw [List.cons_append, next_n_characters_are_, if_neg (not_not.2 rfl), ih]

theorem parse_literal_append (str rest : Bytes) (v : Value F) (what : String) :
    parse_literal str v what (str ++ rest) = .ok (v, rest) := by
  rw [parse_literal, next_n_characters_are_append]

theorem IntegerPart.head (h : IntegerPart ip) :
    ∃ d ds, ip = d :: ds ∧ is_digit d = true ∧ d ≠ char '-' := by
  cases h with
  | zero => exact ⟨_, _, rfl, by decide, by decide⟩
  | @digits d ds hd hds =>
    refine ⟨d, ds, rfl, (is_digit_iff d).2 ?_, ?_⟩
    · have h₁ : 49 ≤ d.toNat := hd.1
      have h₂ : d.toNat ≤ 57 := hd.2
      omega
    · rintro rfl
      exact absurd hd.1 (by decide)

theorem parse_sign_append (hs : Sign sign) (hi : IntegerPart ip) :
    parse_sign (sign ++ (ip ++ rest)) = (sign, ip ++ rest) := by
  cases hs with
  | none =>
    obtain ⟨d, ds, rfl, -, hd⟩ := hi.head
    exact if_neg hd
  | minus => rfl

theorem parse_integer_part_append (hi : IntegerPart ip) (h : NoDigit rest) :
    parse_integer_part (ip ++ rest) = .ok (ip, rest) := by
  cases hi with
  | zero =>
    cases rest with
    | nil => rfl
    | cons ch rest =>
      rw [List.singleton_append, parse_integer_part, if_pos rfl]
      exact if_neg (by rw [h ch rest rfl]; rintro ⟨⟩)
  | @digits d ds hd hds =>
    have hzero : d ≠ char '0' := by
      rintro rfl
      exact absurd hd.1 (by decide)
    obtain ⟨htake, hdrop⟩ := takeWhile_digits hds h
    rw [List.cons_append, parse_integer_part.eq_def]
    dsimp only
    rw [if_neg hzero, if_pos hd, htake, hdrop]

theorem parse_digits_append (hd : Digits ds) (h : NoDigit rest) :
    parse_digits (ds ++ rest) what = .ok (ds, rest) := by
  obtain ⟨hne, hds⟩ := hd
  obtain ⟨htake, hdrop⟩ := takeWhile_digits hds h
  cases ds with
  | nil => exact absurd rfl hne
  | cons d ds =>
    rw [List.cons_append] at htake hdrop ⊢
    rw [parse_digits, if_pos (hds d (.head _)), htake, hdrop]

theorem parse_fraction_append (hf : Fraction fraction) (h : NoDigit rest)
    (hdot : ∀ r, rest ≠ char '.' :: r) :
    parse_fraction (fraction ++ rest) = .ok (fraction, rest) := by
  cases hf with
  | none =>
    cases rest with
    | nil => rfl
    | cons ch rest => exact if_neg fun he => hdot rest (by rw [he])
  | digits hds =>
    rw [List.cons_append, parse_fraction, if_pos rfl, parse_digits_append hds h]
    rfl

theorem parse_exponent_sign_append (hs : ExponentSign sign) (hd : Digits ds) :
    parse_exponent_sign (sign ++ (ds ++ rest)) = (sign, ds ++ rest) := by
  cases hs with
  | none =>
    obtain ⟨hne, hds⟩ := hd
    cases ds with
    | nil => exact absurd rfl hne
    | cons d ds =>
      have hdigit := hds d (.head _)
      refine if_neg ?_
      rintro (rfl | rfl) <;> exact absurd hdigit (by decide)
  | sign h => exact if_pos h

theorem parse_exponent_append (he : Exponent exponent) (h : Stops rest) :
    parse_exponent (exponent ++ rest) = .ok (exponent, rest) := by
  cases he with
  | none =>
    cases rest with
    | nil => rfl
    | cons ch rest =>
      obtain ⟨-, -, hne⟩ := stop_iff ch (h ch rest rfl)
      exact if_neg fun he => he.elim hne.1 hne.2
  | digits he hs hd =>
    rw [List.cons_append, List.cons_append, List.append_assoc, parse_exponent, if_pos he,
      parse_exponent_sign_append hs hd]
    dsimp only
    rw [parse_digits_append hd h.noDigit]
    rfl

/-- What follows a fraction in a number. -/
theorem exponent_follows (he : Exponent exponent) (h : Stops rest) :
    NoDigit (exponent ++ rest) ∧ ∀ r, exponent ++ rest ≠ char '.' :: r := by
  cases he with
  | none =>
    refine ⟨h.noDigit, fun r hr => ?_⟩
    exact (stop_iff _ (h _ r hr)).2.1 rfl
  | @digits e sign ds he =>
    have hfirst : is_digit e = false ∧ e ≠ char '.' := by
      rcases he with rfl | rfl <;> decide
    refine ⟨fun ch r hch => ?_, fun r hr => ?_⟩
    · cases hch
      exact hfirst.1
    · cases hr
      exact hfirst.2 rfl

theorem fraction_follows (hf : Fraction fraction) (h : NoDigit rest) :
    NoDigit (fraction ++ rest) := by
  cases hf with
  | none => exact h
  | digits =>
    intro ch r hch
    cases hch
    decide

theorem ok_bind (a : α) (f : α → Except ε β) : ((.ok a : Except ε α) >>= f) = f a := rfl

theorem parse_number_read (P : Platform F) (hs : Sign sign) (hi : IntegerPart ip)
    (hf : Fraction fraction) (he : Exponent exponent) (h : Stops rest) :
    P.parse_number_ (sign ++ ip ++ fraction ++ exponent ++ rest) =
      if fraction ≠ [] ∨ exponent ≠ [] then
        match P.from_chars (sign ++ ip ++ fraction ++ exponent) with
        | some x => .ok (.number (.floating x), rest)
        | none => throw "invalid floating point"
      else
        match from_chars_integer (sign ++ ip ++ fraction ++ exponent) with
        | some n => .ok (.number (.integer n), rest)
        | none => throw "invalid integer" := by
  obtain ⟨hnodigit, hdot⟩ := exponent_follows he h
  rw [List.append_assoc, List.append_assoc, List.append_assoc, Platform.parse_number_,
    parse_sign_append hs hi]
  dsimp only
  rw [parse_integer_part_append hi (fraction_follows hf hnodigit), ok_bind,
    parse_fraction_append hf hnodigit hdot, ok_bind, parse_exponent_append he h]
  rfl

theorem parse_number_append {P : Platform F} (hx : NumberText P t x) (h : Stops rest) :
    P.parse_number_ (t ++ rest) = .ok (.number x, rest) := by
  cases hx with
  | integer hs hi hn =>
    have hread := parse_number_read P hs hi .none .none h
    rw [List.append_nil, List.append_nil, if_neg (by simp), hn] at hread
    exact hread
  | floating hs hi hf he hne hn => rw [parse_number_read P hs hi hf he h, if_pos hne, hn]

theorem parse_characters_append (h : Characters t s) (result rest : Bytes) :
    parse_characters result (t ++ rest) = parse_characters (result ++ s) rest := by
  induction h generalizing result with
  | nil => rw [List.nil_append, List.append_nil]
  | @plain ch t s hq hc hb ht ih =>
    rw [List.cons_append, parse_characters.eq_def result]
    dsimp only
    rw [if_neg hq, if_neg hc, if_neg hb, ih, List.append_assoc]
    rfl
  | @escaped e ch t s he ht ih =>
    rw [List.cons_append, List.cons_append, parse_characters.eq_def result]
    dsimp only
    rw [if_neg (by decide), if_neg (by decide), if_pos rfl, he, ok_bind, ih, List.append_assoc]
    rfl

theorem parse_string_append (h : Characters t s) (rest : Bytes) :
    parse_string_ (quote :: (t ++ quote :: rest)) = .ok (s, rest) := by
  rw [parse_string_, if_neg (not_not.2 rfl), parse_characters_append h, parse_characters.eq_def]
  exact if_pos rfl

section Values

variable {F : Type} {P : Platform F} {parse_value_ : Bytes → Except Exception (Value F × Bytes)}

/-- The parser reads every text of the grammar that has less than `n` characters, and perhaps white
space after it. -/
def Complete (P : Platform F) (n : Nat)
    (parse_value_ : Bytes → Except Exception (Value F × Bytes)) : Prop :=
  ∀ t v rest, Text P t v → t.length < n → Stops rest → ∃ rest',
    parse_value_ (t ++ rest) = .ok (v, rest') ∧ skip_white_spaces_ rest' = skip_white_spaces_ rest

theorem Sign.head (hs : Sign sign) (hi : IntegerPart ip) : ∃ ch r, sign ++ ip = ch :: r ∧
    ((char '0' ≤ ch ∧ ch ≤ char '9') ∨ ch = char '-') := by
  cases hs with
  | none =>
    obtain ⟨d, ds, rfl, hd, -⟩ := hi.head
    exact ⟨d, ds, rfl, .inl ((is_digit_iff d).1 hd)⟩
  | minus => exact ⟨_, _, rfl, .inr rfl⟩

theorem NumberText.head (h : NumberText P t x) : ∃ ch r, t = ch :: r ∧
    ((char '0' ≤ ch ∧ ch ≤ char '9') ∨ ch = char '-') := by
  cases h with
  | integer hs hi => exact hs.head hi
  | floating hs hi =>
    obtain ⟨ch, r, ht, hch⟩ := hs.head hi
    rw [ht]
    exact ⟨ch, _, rfl, hch⟩

theorem number_char (h : (char '0' ≤ ch ∧ ch ≤ char '9') ∨ ch = char '-') :
    is_space ch = false ∧ ch ≠ char ']' ∧ ch ≠ rbrace := by
  refine ⟨Bool.eq_false_iff.2 fun hs => ?_, ?_, ?_⟩
  · rcases (is_space_iff ch).1 hs with rfl | hs
    · exact absurd h (by decide)
    · rcases h with h | rfl
      · have : 48 ≤ ch.toNat := h.1
        omega
      · exact absurd hs (by decide)
  all_goals
    rintro rfl
    exact absurd h (by decide)

/-- A value starts with a character that is neither white space nor the end of an array or an
object. -/
theorem Text.head (h : Text P t v) :
    ∃ ch r, t = ch :: r ∧ is_space ch = false ∧ ch ≠ char ']' ∧ ch ≠ rbrace := by
  cases h with
  | number hx =>
    obtain ⟨ch, r, rfl, hch⟩ := hx.head
    exact ⟨ch, r, rfl, number_char hch⟩
  | _ => exact ⟨_, _, rfl, by decide, by decide, by decide⟩

theorem padded_trim (h : Padded is_space (Text P) t v) : ∃ w ch r, t = w ++ ch :: r ∧ Spaces w ∧
    (is_space ch = false ∧ ch ≠ char ']' ∧ ch ≠ rbrace) ∧ Padded is_space (Text P) (ch :: r) v := by
  obtain @⟨w, t, a, w', hw, ht, hw'⟩ := h
  obtain ⟨ch, r, rfl, hch⟩ := ht.head
  exact ⟨w, ch, r ++ w', List.append_assoc .., hw, hch, (Padded.of ht).right hw'⟩

theorem member_trim {G : Bytes → Value F → Prop} (h : Member G t m) :
    ∃ w ch r, t = w ++ ch :: r ∧ Spaces w ∧ ch = quote ∧ Member G (ch :: r) m := by
  obtain @⟨w, k, key, w', t, v, hw, hk, hw', ht⟩ := h
  refine ⟨w, quote, k ++ quote :: w' ++ char ':' :: t, ?_, hw, rfl, .mk (w := []) nofun hk hw' ht⟩
  simp only [List.append_assoc, List.cons_append]

theorem skip_trimmed (hw : Spaces w) (h : is_space ch = false) (r rest : Bytes) :
    skip_white_spaces_ (w ++ ch :: r ++ rest) = ch :: (r ++ rest) := by
  rw [List.append_assoc, skip_append hw]
  exact skip_cons _ h

theorem padded_ne_nil (v : Value F) : ¬ Padded is_space (Text P) [] v := fun h => by
  obtain ⟨w, ch, r, he, -⟩ := padded_trim h
  cases w <;> cases he

theorem Complete.padded (hp : Complete P n parse_value_) (h : Padded is_space (Text P) t v)
    (hn : t.length < n) (rest : Bytes) (hs : Stops rest) : ∃ rest',
    parse_value_ (skip_white_spaces_ (t ++ rest)) = .ok (v, rest') ∧
      skip_white_spaces_ rest' = skip_white_spaces_ rest := by
  obtain @⟨w, t, a, w', hw, ht, hw'⟩ := h
  obtain ⟨ch, r, rfl, hspace, -⟩ := ht.head
  have hlen : (ch :: r).length < n := by
    simp only [List.length_append] at hn
    omega
  obtain ⟨rest', hread, hrest⟩ := hp _ _ (w' ++ rest) ht hlen (hs.spaces hw')
  refine ⟨rest', ?_, hrest.trans (skip_append hw')⟩
  rw [List.append_assoc, List.append_assoc, skip_append hw, List.cons_append, skip_cons _ hspace]
  exact hread

/-- One round of the loop reads an element. -/
theorem parse_element_append (hp : Complete P n parse_value_) (h : Padded is_space (Text P) t v)
    (hn : t.length < n) (hs : Stops rest) (fuel : Nat) (result : List (Value F)) :
    parse_elements parse_value_ (fuel + 1) result (skip_white_spaces_ (t ++ rest)) =
      match skip_white_spaces_ rest with
      | [] => throw "unexpected end of array"
      | delimiter :: source =>
        if delimiter = char ']' then .ok (result ++ [v], source)
        else if delimiter ≠ char ',' then throw "expected comma in array"
        else
          match skip_white_spaces_ source with
          | [] => throw "unexpected end of array"
          | ch :: source =>
            if ch = char ']' then throw "trailing comma in array"
            else parse_elements parse_value_ fuel (result ++ [v]) (ch :: source) := by
  obtain ⟨rest', hread, hrest⟩ := hp.padded h hn rest hs
  rw [parse_elements, hread, ok_bind]
  dsimp only
  generalize skip_white_spaces_ rest' = source at hrest ⊢
  subst hrest
  rfl

theorem parse_elements_comma (hp : Complete P n parse_value_) (h : Padded is_space (Text P) t v)
    (hn : t.length < n) (hrest : skip_white_spaces_ rest = ch :: r) (hch : ch ≠ char ']')
    (fuel : Nat) (result : List (Value F)) :
    parse_elements parse_value_ (fuel + 1) result (skip_white_spaces_ (t ++ char ',' :: rest)) =
      parse_elements parse_value_ fuel (result ++ [v]) (ch :: r) := by
  have hstop : Stops (char ',' :: rest) := .cons (.inr (.inl rfl))
  rw [parse_element_append hp h hn hstop, skip_cons rest (by decide)]
  dsimp only
  rw [if_neg (by decide), if_neg (not_not.2 rfl), hrest]
  exact if_neg hch

theorem parse_elements_append (hp : Complete P n parse_value_)
    (h : Separated (char ',') (Padded is_space (Text P)) t vs) (hn : t.length < n)
    (hfuel : vs.length ≤ fuel) (result : List (Value F)) (rest : Bytes) :
    parse_elements parse_value_ fuel result (skip_white_spaces_ (t ++ char ']' :: rest)) =
      .ok (result ++ vs, rest) := by
  induction h generalizing fuel result with
  | @single t v ht =>
    obtain ⟨fuel, rfl⟩ := Nat.exists_eq_succ_of_ne_zero (Nat.ne_of_gt hfuel)
    have hstop : Stops (char ']' :: rest) := .cons (.inr (.inr (.inl rfl)))
    rw [parse_element_append hp ht hn hstop, skip_cons rest (by decide)]
    exact if_pos rfl
  | @cons t v ts vs ht hts ih =>
    obtain ⟨fuel, rfl⟩ := Nat.exists_eq_succ_of_ne_zero
      (Nat.ne_of_gt (Nat.lt_of_lt_of_le (Nat.succ_pos _) hfuel))
    have hlen : t.length < n ∧ ts.length < n := by
      simp only [List.length_append, List.length_cons] at hn
      omega
    have hnext := ih hlen.2 (Nat.le_of_succ_le_succ hfuel) (result ++ [v])
    obtain ⟨w, ch, r, rfl, hw, ⟨hspace, hch, -⟩, -⟩ := hts.trim fun _ _ => padded_trim
    have hskip := skip_trimmed hw hspace r (char ']' :: rest)
    rw [hskip] at hnext
    rw [List.append_assoc, List.cons_append, parse_elements_comma hp ht hlen.1 hskip hch, hnext,
      List.append_assoc]
    rfl

theorem parse_array_append (hp : Complete P n parse_value_)
    (h : Separated (char ',') (Padded is_space (Text P)) t vs) (hn : t.length < n) (rest : Bytes) :
    parse_array_ parse_value_ (t ++ char ']' :: rest) =
      .ok (.array vs, skip_white_spaces_ rest) := by
  obtain ⟨w, ch, r, rfl, hw, ⟨hspace, hch, -⟩, hvs⟩ := h.trim fun _ _ => padded_trim
  have hskip := skip_trimmed hw hspace r (char ']' :: rest)
  have hlen : vs.length ≤ (r ++ char ']' :: rest).length + 1 := by
    have := hvs.length_le padded_ne_nil
    simp only [List.length_append, List.length_cons] at this ⊢
    omega
  have hread := parse_elements_append hp h hn hlen [] rest
  rw [hskip] at hread
  rw [parse_array_, hskip]
  dsimp only
  rw [if_neg hch, hread]
  rfl

/-- One round of the loop reads a member. -/
theorem parse_member_append (hp : Complete P n parse_value_)
    (h : Member (Padded is_space (Text P)) t m) (hn : t.length < n) (hs : Stops rest)
    (fuel : Nat) (result : List (Bytes × Value F)) :
    parse_members parse_value_ (fuel + 1) result (skip_white_spaces_ (t ++ rest)) =
      match skip_white_spaces_ rest with
      | [] => throw "unexpected end of object"
      | delimiter :: source =>
        if delimiter = rbrace then .ok (insert_or_assign result m.1 m.2, source)
        else if delimiter ≠ char ',' then throw "expected comma in object"
        else
          match skip_white_spaces_ source with
          | [] => throw "unexpected end of object"
          | ch :: source =>
            if ch = rbrace then throw "trailing comma in object"
            else
              parse_members parse_value_ fuel (insert_or_assign result m.1 m.2) (ch :: source) := by
  obtain @⟨w, k, key, w', t, v, hw, hk, hw', ht⟩ := h
  have hlen : t.length < n := by
    simp only [List.length_append, List.length_cons] at hn
    omega
  obtain ⟨rest', hread, hrest⟩ := hp.padded ht hlen rest hs
  have hsource : skip_white_spaces_ (w ++ quote :: k ++ quote :: w' ++ char ':' :: t ++ rest) =
      quote :: (k ++ quote :: (w' ++ char ':' :: (t ++ rest))) := by
    simp only [List.append_assoc, List.cons_append]
    rw [skip_append hw, skip_cons _ (by decide)]
  rw [hsource, parse_members.eq_def]
  dsimp only
  rw [if_neg (not_not.2 rfl), parse_string_append hk, ok_bind]
  dsimp only
  rw [skip_append hw', skip_cons _ (by decide)]
  dsimp only
  rw [if_neg (not_not.2 rfl), hread, ok_bind]
  dsimp only
  generalize skip_white_spaces_ rest' = source at hrest ⊢
  subst hrest
  rfl

theorem parse_members_comma (hp : Complete P n parse_value_)
    (h : Member (Padded is_space (Text P)) t m) (hn : t.length < n)
    (hrest : skip_white_spaces_ rest = ch :: r) (hch : ch ≠ rbrace) (fuel : Nat)
    (result : List (Bytes × Value F)) :
    parse_members parse_value_ (fuel + 1) result (skip_white_spaces_ (t ++ char ',' :: rest)) =
      parse_members parse_value_ fuel (insert_or_assign result m.1 m.2) (ch :: r) := by
  have hstop : Stops (char ',' :: rest) := .cons (.inr (.inl rfl))
  rw [parse_member_append hp h hn hstop, skip_cons rest (by decide)]
  dsimp only
  rw [if_neg (by decide), if_neg (not_not.2 rfl), hrest]
  exact if_neg hch

theorem parse_members_append (hp : Complete P n parse_value_)
    (h : Separated (char ',') (Member (Padded is_space (Text P))) t ms) (hn : t.length < n)
    (hfuel : ms.length ≤ fuel) (result : List (Bytes × Value F)) (rest : Bytes) :
    parse_members parse_value_ fuel result (skip_white_spaces_ (t ++ rbrace :: rest)) =
      .ok (ms.foldl (fun ms m => insert_or_assign ms m.1 m.2) result, rest) := by
  induction h generalizing fuel result with
  | @single t m hm =>
    obtain ⟨fuel, rfl⟩ := Nat.exists_eq_succ_of_ne_zero (Nat.ne_of_gt hfuel)
    have hstop : Stops (rbrace :: rest) := .cons (.inr (.inr (.inr rfl)))
    rw [parse_member_append hp hm hn hstop, skip_cons rest (by decide)]
    exact if_pos rfl
  | @cons t m ts ms hm hms ih =>
    obtain ⟨fuel, rfl⟩ := Nat.exists_eq_succ_of_ne_zero
      (Nat.ne_of_gt (Nat.lt_of_lt_of_le (Nat.succ_pos _) hfuel))
    have hlen : t.length < n ∧ ts.length < n := by
      simp only [List.length_append, List.length_cons] at hn
      omega
    have hnext := ih hlen.2 (Nat.le_of_succ_le_succ hfuel) (insert_or_assign result m.1 m.2)
    obtain ⟨w, ch, r, rfl, hw, rfl, -⟩ := hms.trim fun _ _ => member_trim
    have hskip := skip_trimmed hw (show is_space quote = false by decide) r (rbrace :: rest)
    rw [hskip] at hnext
    rw [List.append_assoc, List.cons_append,
      parse_members_comma hp hm hlen.1 hskip (by decide), hnext]
    rfl

theorem member_ne_nil (m : Bytes × Value F) : ¬ Member (Padded is_space (Text P)) [] m :=
  fun h => by
    obtain ⟨w, ch, r, he, -⟩ := member_trim h
    cases w <;> cases he

theorem parse_object_append (hp : Complete P n parse_value_)
    (h : Separated (char ',') (Member (Padded is_space (Text P))) t ms) (hn : t.length < n)
    (rest : Bytes) : parse_object_ parse_value_ (t ++ rbrace :: rest) =
      .ok (.object (ms.foldl (fun ms m => insert_or_assign ms m.1 m.2) []),
        skip_white_spaces_ rest) := by
  obtain ⟨w, ch, r, rfl, hw, rfl, hms⟩ := h.trim fun _ _ => member_trim
  have hskip := skip_trimmed hw (show is_space quote = false by decide) r (rbrace :: rest)
  have hlen : ms.length ≤ (r ++ rbrace :: rest).length + 1 := by
    have := hms.length_le member_ne_nil
    simp only [List.length_append, List.length_cons] at this ⊢
    omega
  have hread := parse_members_append hp h hn hlen [] rest
  rw [hskip] at hread
  rw [parse_object_, hskip]
  dsimp only
  rw [if_neg (by decide), hread]
  rfl

theorem skip_idempotent (source : Bytes) :
    skip_white_spaces_ (skip_white_spaces_ source) = skip_white_spaces_ source :=
  List.dropWhile_idempotent is_space source

theorem parse_value_skip (fuel : Nat) (source : Bytes) :
    P.parse_value_ fuel (skip_white_spaces_ source) = P.parse_value_ fuel source := by
  cases fuel with
  | zero => rfl
  | succ fuel => rw [Platform.parse_value_, Platform.parse_value_, skip_idempotent]

section Dispatch

variable {n : Nat} {source : Bytes}

theorem parse_value_quote : P.parse_value_ (n + 1) (quote :: source) =
    (parse_string_ (quote :: source) >>= fun r => .ok (.string r.1, r.2)) := by
  rw [Platform.parse_value_, skip_cons _ (by decide)]
  rfl

theorem parse_value_bracket : P.parse_value_ (n + 1) (char '[' :: source) =
    parse_array_ (P.parse_value_ n) source := by
  rw [Platform.parse_value_, skip_cons _ (by decide)]
  rfl

theorem parse_value_brace : P.parse_value_ (n + 1) (lbrace :: source) =
    parse_object_ (P.parse_value_ n) source := by
  rw [Platform.parse_value_, skip_cons _ (by decide)]
  rfl

theorem parse_value_number (h : (char '0' ≤ ch ∧ ch ≤ char '9') ∨ ch = char '-') :
    P.parse_value_ (n + 1) (ch :: source) = P.parse_number_ (ch :: source) := by
  have hne : ∀ x, ¬ ((char '0' ≤ x ∧ x ≤ char '9') ∨ x = char '-') → ch ≠ x := by
    rintro x hx rfl
    exact hx h
  rw [Platform.parse_value_, skip_cons _ (number_char h).1]
  dsimp only
  rw [if_neg (hne _ (by decide)), if_neg (hne _ (by decide)), if_neg (hne _ (by decide)),
    if_neg (hne _ (by decide)), if_neg (hne _ (by decide)), if_neg (hne _ (by decide)), if_pos h]

end Dispatch

/-- Inside brackets there is less fuel, but the text is shorter. -/
theorem parse_value_complete (P : Platform F) (n : Nat) : Complete P n (P.parse_value_ n) := by
  induction n with
  | zero => exact fun _ _ _ _ h => absurd h (Nat.not_lt_zero _)
  | succ n ih =>
    intro t v rest h hn hs
    have hlen : ∀ {ts : Bytes} {a b : UInt8}, (a :: ts ++ [b]).length < n + 1 → ts.length < n := by
      intro ts a b hn
      simp only [List.length_append, List.length_cons, List.length_nil] at hn
      omega
    have hclosed : ∀ (a b : UInt8) (ts : Bytes), a :: ts ++ [b] ++ rest = a :: (ts ++ b :: rest) :=
      fun a b ts => congrArg (a :: ·) (List.append_assoc ..)
    cases h with
    | null =>
      rw [Platform.parse_value_, text, List.map_cons, List.cons_append, skip_cons _ (by decide)]
      exact ⟨rest, parse_literal_append (text ['n', 'u', 'l', 'l']) rest .null
        "expected `null` isn't complete", rfl⟩
    | boolean_true =>
      rw [Platform.parse_value_, text, List.map_cons, List.cons_append, skip_cons _ (by decide)]
      exact ⟨rest, parse_literal_append (text ['t', 'r', 'u', 'e']) rest (.boolean true)
        "expected `true` isn't complete", rfl⟩
    | boolean_false =>
      rw [Platform.parse_value_, text, List.map_cons, List.cons_append, skip_cons _ (by decide)]
      exact ⟨rest, parse_literal_append (text ['f', 'a', 'l', 's', 'e']) rest (.boolean false)
        "expected `false` isn't complete", rfl⟩
    | number hx =>
      obtain ⟨ch, r, rfl, hch⟩ := hx.head
      refine ⟨rest, ?_, rfl⟩
      rw [List.cons_append, parse_value_number hch]
      exact parse_number_append hx hs
    | @string t s ht =>
      refine ⟨rest, ?_, rfl⟩
      rw [hclosed, parse_value_quote, parse_string_append ht, ok_bind]
    | @empty_array w hw =>
      have hskip : skip_white_spaces_ (w ++ char ']' :: rest) = char ']' :: rest := by
        rw [skip_append hw, skip_cons _ (by decide)]
      refine ⟨_, ?_, skip_idempotent rest⟩
      rw [hclosed, parse_value_bracket, parse_array_, hskip]
      exact if_pos rfl
    | array hvs =>
      refine ⟨_, ?_, skip_idempotent rest⟩
      rw [hclosed, parse_value_bracket]
      exact parse_array_append ih hvs (hlen hn) rest
    | @empty_object w hw =>
      have hskip : skip_white_spaces_ (w ++ rbrace :: rest) = rbrace :: rest := by
        rw [skip_append hw, skip_cons _ (by decide)]
      refine ⟨_, ?_, skip_idempotent rest⟩
      rw [hclosed, parse_value_brace, parse_object_, hskip]
      exact if_pos rfl
    | object hms =>
      refine ⟨_, ?_, skip_idempotent rest⟩
      rw [hclosed, parse_value_brace]
      exact parse_object_append ih hms (hlen hn) rest

/-- The parser does not run out of fuel. -/
def Fueled (x : Except Exception α) : Prop := x ≠ .error .fuel

theorem Fueled.ok (a : α) : Fueled (.ok a) := nofun

theorem Fueled.throw (what : String) : Fueled (throw what : Except Exception α) := nofun

theorem Fueled.bind {α β : Type} {x : Except Exception α} {f : α → Except Exception β}
    (hx : Fueled x) (hf : ∀ a, x = .ok a → Fueled (f a)) : Fueled (x >>= f) := by
  cases x with
  | error e => exact fun h => hx (congrArg _ (Except.error.inj h))
  | ok a => exact hf a rfl

theorem parse_digits_fueled (source : Bytes) (what : String) :
    Fueled (parse_digits source what) := by
  unfold parse_digits
  (repeat' split) <;> first | exact .ok _ | exact .throw _

theorem parse_number_fueled (P : Platform F) (source : Bytes) :
    Fueled (P.parse_number_ source) := by
  have hinteger : ∀ source, Fueled (parse_integer_part source) := fun source => by
    unfold parse_integer_part
    (repeat' split) <;> first | exact .ok _ | exact .throw _
  have hfraction : ∀ source, Fueled (parse_fraction source) := fun source => by
    unfold parse_fraction
    (repeat' split)
    · exact .ok _
    · exact (parse_digits_fueled _ _).bind fun _ _ => .ok _
    · exact .ok _
  have hexponent : ∀ source, Fueled (parse_exponent source) := fun source => by
    unfold parse_exponent
    (repeat' split)
    · exact .ok _
    · exact (parse_digits_fueled _ _).bind fun _ _ => .ok _
    · exact .ok _
  refine (hinteger _).bind fun _ _ => (hfraction _).bind fun _ _ => (hexponent _).bind fun _ _ => ?_
  dsimp only
  (repeat' split) <;> first | exact .ok _ | exact .throw _

theorem parse_characters_fueled (result source : Bytes) :
    Fueled (parse_characters result source) := by
  have hescape : ∀ e, Fueled (unescape e) := fun e => by
    unfold unescape
    (repeat' split) <;> first | exact .ok _ | exact .throw _
  fun_induction parse_characters result source with
  | case1 | case3 | case4 => exact .throw _
  | case2 => exact .ok _
  | case5 result e source hq hc ih => exact (hescape e).bind fun ch _ => ih ch
  | case6 result ch source hq hc hb ih => exact ih

theorem parse_string_fueled (source : Bytes) : Fueled (parse_string_ source) := by
  unfold parse_string_
  (repeat' split) <;> first | exact .throw _ | exact parse_characters_fueled _ _

theorem Sound.consumes (hp : Sound P parse_value_) (h : parse_value_ source = .ok (v, rest)) :
    rest.length < source.length := by
  obtain ⟨t, rfl, ht⟩ := hp _ _ _ h
  cases t with
  | nil => exact absurd ht (padded_ne_nil v)
  | cons ch t =>
    simp only [List.cons_append, List.length_cons, List.length_append]
    omega

theorem skip_length (h : skip_white_spaces_ source = rest) : rest.length ≤ source.length := by
  rw [← h]
  exact List.length_dropWhile_le ..

theorem parse_elements_fueled (hp : Sound P parse_value_)
    (hf : ∀ source, source.length < n → Fueled (parse_value_ source)) (hn : source.length < n)
    (hfuel : source.length ≤ fuel) (hne : source ≠ []) (result : List (Value F)) :
    Fueled (parse_elements parse_value_ fuel result source) := by
  induction fuel generalizing source result with
  | zero => exact absurd (List.length_eq_zero_iff.1 (Nat.le_zero.1 hfuel)) hne
  | succ fuel ih =>
    simp only [parse_elements]
    refine (hf _ hn).bind fun ⟨v, source₁⟩ hv => ?_
    have hlen := hp.consumes hv
    dsimp only
    split
    · exact .throw _
    · rename_i delimiter source₂ hskip
      have hlen₂ := skip_length hskip
      rw [List.length_cons] at hlen₂
      split
      · exact .ok _
      · split
        · exact .throw _
        · split
          · exact .throw _
          · rename_i ch source₃ hskip₃
            have hlen₃ := skip_length hskip₃
            split
            · exact .throw _
            · exact ih (by omega) (by omega) (List.cons_ne_nil _ _) _

theorem parse_members_fueled (hp : Sound P parse_value_)
    (hf : ∀ source, source.length < n → Fueled (parse_value_ source)) (hn : source.length < n)
    (hfuel : source.length ≤ fuel) (hne : source ≠ []) (result : List (Bytes × Value F)) :
    Fueled (parse_members parse_value_ fuel result source) := by
  induction fuel generalizing source result with
  | zero => exact absurd (List.length_eq_zero_iff.1 (Nat.le_zero.1 hfuel)) hne
  | succ fuel ih =>
    simp only [parse_members]
    split
    · exact .throw _
    · split
      · exact .throw _
      · refine (parse_string_fueled _).bind fun key hkey => ?_
        obtain ⟨key, source₁⟩ := key
        obtain ⟨k, hk, -⟩ := parse_string_sound hkey
        have hlen := congrArg List.length hk
        simp only [List.length_append, List.length_cons] at hlen hn hfuel
        dsimp only
        split
        · exact .throw _
        · rename_i colon source₂ hskip
          have hlen₂ := skip_length hskip
          rw [List.length_cons] at hlen₂
          split
          · exact .throw _
          · have hlen₃ : (skip_white_spaces_ source₂).length ≤ source₂.length := skip_length rfl
            refine (hf _ (by omega)).bind fun v hv => ?_
            obtain ⟨v, source₃⟩ := v
            have hlen₄ := hp.consumes hv
            dsimp only
            split
            · exact .throw _
            · rename_i delimiter source₅ hskip₅
              have hlen₅ := skip_length hskip₅
              rw [List.length_cons] at hlen₅
              split
              · exact .ok _
              · split
                · exact .throw _
                · split
                  · exact .throw _
                  · rename_i ch source₆ hskip₆
                    have hlen₆ := skip_length hskip₆
                    split
                    · exact .throw _
                    · exact ih (by omega) (by omega) (List.cons_ne_nil _ _) _

theorem parse_array_fueled (hp : Sound P parse_value_)
    (hf : ∀ source, source.length < n → Fueled (parse_value_ source)) (hn : source.length < n) :
    Fueled (parse_array_ parse_value_ source) := by
  unfold parse_array_
  split
  · exact .throw _
  · rename_i ch source₁ hskip
    have hlen := skip_length hskip
    split
    · exact .ok _
    · have hread : Fueled (parse_elements parse_value_ (source₁.length + 1) [] (ch :: source₁)) :=
        parse_elements_fueled hp hf (Nat.lt_of_le_of_lt hlen hn) (Nat.le_refl _)
          (List.cons_ne_nil _ _) []
      exact hread.bind fun _ _ => .ok _

theorem parse_object_fueled (hp : Sound P parse_value_)
    (hf : ∀ source, source.length < n → Fueled (parse_value_ source)) (hn : source.length < n) :
    Fueled (parse_object_ parse_value_ source) := by
  unfold parse_object_
  split
  · exact .throw _
  · rename_i ch source₁ hskip
    have hlen := skip_length hskip
    split
    · exact .ok _
    · have hread : Fueled (parse_members parse_value_ (source₁.length + 1) [] (ch :: source₁)) :=
        parse_members_fueled hp hf (Nat.lt_of_le_of_lt hlen hn) (Nat.le_refl _)
          (List.cons_ne_nil _ _) []
      exact hread.bind fun _ _ => .ok _

/-- The fuel suffices for every depth that a text of this length can have. -/
theorem parse_value_fueled (P : Platform F) (n : Nat) (source : Bytes) (hn : source.length < n) :
    Fueled (P.parse_value_ n source) := by
  induction n generalizing source with
  | zero => exact absurd hn (Nat.not_lt_zero _)
  | succ n ih =>
    have hliteral : ∀ str (v : Value F) what source,
        Fueled (parse_literal str v what source) := fun str v what source => by
      unfold parse_literal
      split <;> first | exact .ok _ | exact .throw _
    rw [Platform.parse_value_]
    split
    · exact .throw _
    · rename_i peek source₁ hskip
      have hlen := skip_length hskip
      rw [List.length_cons] at hlen
      have hn₁ : source₁.length < n := by omega
      (repeat' split)
      · exact hliteral _ _ _ _
      · exact hliteral _ _ _ _
      · exact hliteral _ _ _ _
      · exact (parse_string_fueled _).bind fun _ _ => .ok _
      · exact parse_array_fueled (parse_value_sound P n) ih hn₁
      · exact parse_object_fueled (parse_value_sound P n) ih hn₁
      · exact parse_number_fueled P _
      · exact .throw _

/-- The parser accepts exactly the texts of the grammar with white space around them, with the value
that the grammar gives them, and refuses every other text with an exception. -/
theorem parse_grammar (P : Platform F) (source : Bytes) :
    (∀ v, P.parse source = .ok v ↔ Padded is_space (Text P) source v) ∧
    ((∀ v, ¬ Padded is_space (Text P) source v) ↔
      ∃ what, P.parse source = .error (.bad_json what)) := by
  have hiff : ∀ v, P.parse source = .ok v ↔ Padded is_space (Text P) source v := by
    refine fun v => ⟨fun h => ?_, fun h => ?_⟩
    · obtain ⟨⟨v', rest⟩, hv, h₁⟩ := bind_eq_ok.1 h
      obtain ⟨t, rfl, ht⟩ := parse_value_sound P _ _ _ _ hv
      dsimp only at h₁
      split at h₁
      · cases h₁
      · rename_i hrest
        cases h₁
        obtain ⟨w, hw, hsource⟩ := skip_white_spaces_spec rest
        rw [not_not.1 hrest, List.append_nil] at hsource
        rw [hsource]
        exact ht.right hw
    · obtain ⟨rest, hread, hrest⟩ := (parse_value_complete P (source.length + 1)).padded h
        (Nat.lt_succ_self _) [] .nil
      rw [List.append_nil, parse_value_skip] at hread
      rw [Platform.parse, hread, ok_bind]
      exact if_neg (not_not.2 hrest)
  have hfueled : Fueled (P.parse source) := by
    refine (parse_value_fueled P _ source (Nat.lt_succ_self _)).bind fun _ _ => ?_
    dsimp only
    split <;> first | exact .ok _ | exact .throw _
  refine ⟨hiff, fun h => ?_, fun ⟨what, h⟩ v hv => ?_⟩
  · cases hparse : P.parse source with
    | ok v => exact absurd ((hiff v).1 hparse) (h v)
    | error e =>
      cases e with
      | bad_json what => exact ⟨what, rfl⟩
      | fuel => exact absurd hparse hfueled
  · rw [(hiff v).2 hv] at h
    cases h

end Values

end Coio.JsonRpc
