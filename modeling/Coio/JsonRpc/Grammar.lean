import Coio.JsonRpc.Model
import Coio.Lib.Grammar
import Mathlib.Data.List.TakeWhile

namespace Coio.JsonRpc
open Grammar
set_option autoImplicit true

def Spaces (w : Bytes) : Prop := ∀ ch ∈ w, is_space ch = true

def Digits (ds : Bytes) : Prop := ds ≠ [] ∧ ∀ d ∈ ds, is_digit d = true

inductive Sign : Bytes → Prop
  | none : Sign []
  | minus : Sign [char '-']

inductive IntegerPart : Bytes → Prop
  | zero : IntegerPart [char '0']
  | digits (h : char '1' ≤ d ∧ d ≤ char '9') (hds : ∀ d ∈ ds, is_digit d = true) :
      IntegerPart (d :: ds)

inductive Fraction : Bytes → Prop
  | none : Fraction []
  | digits (h : Digits ds) : Fraction (char '.' :: ds)

inductive ExponentSign : Bytes → Prop
  | none : ExponentSign []
  | sign (h : ch = char '+' ∨ ch = char '-') : ExponentSign [ch]

inductive Exponent : Bytes → Prop
  | none : Exponent []
  | digits (he : e = char 'e' ∨ e = char 'E') (hs : ExponentSign sign) (h : Digits ds) :
      Exponent (e :: sign ++ ds)

/-- An integer has neither a fraction nor an exponent. -/
inductive NumberText (P : Platform F) : Bytes → Number F → Prop
  | integer (hs : Sign sign) (hi : IntegerPart ip)
      (h : from_chars_integer (sign ++ ip) = some n) : NumberText P (sign ++ ip) (.integer n)
  | floating (hs : Sign sign) (hi : IntegerPart ip) (hf : Fraction fraction)
      (he : Exponent exponent) (hne : fraction ≠ [] ∨ exponent ≠ [])
      (h : P.from_chars (sign ++ ip ++ fraction ++ exponent) = some x) :
      NumberText P (sign ++ ip ++ fraction ++ exponent) (.floating x)

/-- What stands between the quotes of a string. -/
inductive Characters : Bytes → Bytes → Prop
  | nil : Characters [] []
  | plain (hq : ch ≠ quote) (hc : ¬ ch < 0x20) (hb : ch ≠ backslash) (h : Characters t s) :
      Characters (ch :: t) (ch :: s)
  | escaped (he : unescape e = .ok ch) (h : Characters t s) :
      Characters (backslash :: e :: t) (ch :: s)

inductive Member (G : Bytes → Value F → Prop) : Bytes → Bytes × Value F → Prop
  | mk (hw : Spaces w) (hk : Characters k key) (hw' : Spaces w') (ht : G t v) :
      Member G (w ++ quote :: k ++ quote :: w' ++ char ':' :: t) (key, v)

/-- A value without white space around it. Of several members with one key the last one counts. -/
inductive Text (P : Platform F) : Bytes → Value F → Prop
  | null : Text P (text ['n', 'u', 'l', 'l']) .null
  | boolean_true : Text P (text ['t', 'r', 'u', 'e']) (.boolean true)
  | boolean_false : Text P (text ['f', 'a', 'l', 's', 'e']) (.boolean false)
  | number (h : NumberText P t x) : Text P t (.number x)
  | string (h : Characters t s) : Text P (quote :: t ++ [quote]) (.string s)
  | empty_array (hw : Spaces w) : Text P (char '[' :: w ++ [char ']']) (.array [])
  | array (h : Separated (char ',') (Padded is_space (Text P)) t vs) :
      Text P (char '[' :: t ++ [char ']']) (.array vs)
  | empty_object (hw : Spaces w) : Text P (lbrace :: w ++ [rbrace]) (.object [])
  | object (h : Separated (char ',') (Member (Padded is_space (Text P))) t ms) :
      Text P (lbrace :: t ++ [rbrace])
        (.object (ms.foldl (fun ms m => insert_or_assign ms m.1 m.2) []))

theorem bind_eq_ok {x : Except ε α} {f : α → Except ε β} :
    (x >>= f) = .ok b ↔ ∃ a, x = .ok a ∧ f a = .ok b := by
  cases x with
  | error e => exact ⟨nofun, fun ⟨_, h, _⟩ => nomatch h⟩
  | ok a => exact ⟨fun h => ⟨a, rfl, h⟩, fun ⟨_, h, hf⟩ => by cases h; exact hf⟩

theorem skip_white_spaces_spec (source : Bytes) :
    ∃ w, Spaces w ∧ source = w ++ skip_white_spaces_ source :=
  ⟨source.takeWhile is_space, fun _ h => List.mem_takeWhile_imp h,
    List.takeWhile_append_dropWhile.symm⟩

theorem next_n_characters_are_sound (h : next_n_characters_are_ str source = (true, rest)) :
    source = str ++ rest := by
  induction str generalizing source with
  | nil => cases source <;> exact congrArg Prod.snd h
  | cons chr str ih =>
    cases source with
    | nil => cases h
    | cons ch source =>
      rw [next_n_characters_are_] at h
      split at h
      · cases h
      · rename_i hch
        rw [ih h, not_not.1 hch]
        rfl

theorem parse_sign_sound (h : parse_sign source = (sign, rest)) :
    source = sign ++ rest ∧ Sign sign := by
  cases source with
  | nil =>
    cases h
    exact ⟨rfl, .none⟩
  | cons ch source =>
    rw [parse_sign] at h
    split at h
    · rename_i hch
      cases h
      rw [hch]
      exact ⟨rfl, .minus⟩
    · cases h
      exact ⟨rfl, .none⟩

theorem digits_split (source : Bytes) :
    source = source.takeWhile is_digit ++ source.dropWhile is_digit ∧
      ∀ d ∈ source.takeWhile is_digit, is_digit d = true :=
  ⟨List.takeWhile_append_dropWhile.symm, fun _ h => List.mem_takeWhile_imp h⟩

theorem parse_integer_part_sound (h : parse_integer_part source = .ok (ip, rest)) :
    source = ip ++ rest ∧ IntegerPart ip := by
  unfold parse_integer_part at h
  split at h
  · cases h
  · rename_i ch source
    split at h
    · rename_i hch
      subst hch
      split at h
      · split at h
        · cases h
        · cases h
          exact ⟨rfl, .zero⟩
      · cases h
        exact ⟨rfl, .zero⟩
    · split at h
      · rename_i hch
        cases h
        obtain ⟨hsplit, hdigits⟩ := digits_split source
        exact ⟨congrArg (ch :: ·) hsplit, .digits hch hdigits⟩
      · cases h

theorem parse_digits_sound (h : parse_digits source what = .ok (ds, rest)) :
    source = ds ++ rest ∧ Digits ds := by
  unfold parse_digits at h
  split at h
  · cases h
  · rename_i ch source
    split at h
    · rename_i hch
      cases h
      obtain ⟨hsplit, hdigits⟩ := digits_split (ch :: source)
      refine ⟨hsplit, fun hnil => ?_, hdigits⟩
      rw [List.takeWhile_cons_of_pos hch] at hnil
      cases hnil
    · cases h

theorem parse_fraction_sound (h : parse_fraction source = .ok (fraction, rest)) :
    source = fraction ++ rest ∧ Fraction fraction := by
  unfold parse_fraction at h
  split at h
  · cases h
    exact ⟨rfl, .none⟩
  · rename_i ch source
    split at h
    · rename_i hch
      obtain ⟨⟨ds, rest'⟩, hds, h⟩ := bind_eq_ok.1 h
      cases h
      obtain ⟨rfl, hdigits⟩ := parse_digits_sound hds
      rw [hch]
      exact ⟨rfl, .digits hdigits⟩
    · cases h
      exact ⟨rfl, .none⟩

theorem parse_exponent_sign_sound (h : parse_exponent_sign source = (sign, rest)) :
    source = sign ++ rest ∧ ExponentSign sign := by
  unfold parse_exponent_sign at h
  split at h
  · cases h
    exact ⟨rfl, .none⟩
  · split at h
    · rename_i hch
      cases h
      exact ⟨rfl, .sign hch⟩
    · cases h
      exact ⟨rfl, .none⟩

theorem parse_exponent_sound (h : parse_exponent source = .ok (exponent, rest)) :
    source = exponent ++ rest ∧ Exponent exponent := by
  unfold parse_exponent at h
  split at h
  · cases h
    exact ⟨rfl, .none⟩
  · rename_i ch source
    split at h
    · rename_i hch
      cases hsign : parse_exponent_sign source with
      | mk sign source' =>
        rw [hsign] at h
        obtain ⟨⟨ds, rest'⟩, hds, h⟩ := bind_eq_ok.1 h
        cases h
        obtain ⟨rfl, hs⟩ := parse_exponent_sign_sound hsign
        obtain ⟨rfl, hdigits⟩ := parse_digits_sound hds
        exact ⟨congrArg (ch :: ·) (List.append_assoc ..).symm, .digits hch hs hdigits⟩
    · cases h
      exact ⟨rfl, .none⟩

theorem parse_number_sound {P : Platform F} (h : P.parse_number_ source = .ok (v, rest)) :
    ∃ t x, source = t ++ rest ∧ v = .number x ∧ NumberText P t x := by
  unfold Platform.parse_number_ at h
  rcases hsign : parse_sign source with ⟨sign, rest₀⟩
  obtain ⟨rfl, hs⟩ := parse_sign_sound hsign
  rw [hsign] at h
  obtain ⟨⟨ip, rest₁⟩, hip, h₁⟩ := bind_eq_ok.1 h
  obtain ⟨⟨fraction, rest₂⟩, hfraction, h₂⟩ := bind_eq_ok.1 h₁
  obtain ⟨⟨exponent, rest₃⟩, hexponent, h₃⟩ := bind_eq_ok.1 h₂
  clear h h₁ h₂
  obtain ⟨rfl, hi⟩ := parse_integer_part_sound hip
  obtain ⟨rfl, hf⟩ := parse_fraction_sound hfraction
  obtain ⟨rfl, he⟩ := parse_exponent_sound hexponent
  dsimp only at h₃
  split at h₃
  · rename_i hne
    split at h₃
    · cases h₃
      refine ⟨_, _, ?_, rfl, .floating hs hi hf he hne ‹_›⟩
      simp only [List.append_assoc]
    · cases h₃
  · rename_i hne
    obtain ⟨rfl, rfl⟩ : fraction = [] ∧ exponent = [] := by
      simpa only [not_or, ne_eq, not_not] using hne
    rw [List.append_nil, List.append_nil] at h₃
    split at h₃
    · cases h₃
      refine ⟨_, _, ?_, rfl, .integer hs hi ‹_›⟩
      simp only [List.append_assoc, List.nil_append]
    · cases h₃

theorem parse_characters_sound (h : parse_characters result source = .ok (out, rest)) :
    ∃ t s, source = t ++ quote :: rest ∧ out = result ++ s ∧ Characters t s := by
  fun_induction parse_characters result source with
  | case1 => cases h
  | case2 result source =>
    cases h
    exact ⟨[], [], rfl, (List.append_nil _).symm, .nil⟩
  | case3 => cases h
  | case4 => cases h
  | case5 result e source hq hc ih =>
    obtain ⟨c, he, h⟩ := bind_eq_ok.1 h
    obtain ⟨t, s, rfl, rfl, ht⟩ := ih c h
    exact ⟨_, _, rfl, List.append_assoc .., .escaped he ht⟩
  | case6 result ch source hq hc hb ih =>
    obtain ⟨t, s, rfl, rfl, ht⟩ := ih h
    exact ⟨_, _, rfl, List.append_assoc .., .plain hq hc hb ht⟩

theorem parse_string_sound (h : parse_string_ source = .ok (s, rest)) :
    ∃ t, source = quote :: t ++ quote :: rest ∧ Characters t s := by
  unfold parse_string_ at h
  split at h
  · cases h
  · split at h
    · cases h
    · rename_i hq
      obtain ⟨t, s', rfl, rfl, ht⟩ := parse_characters_sound h
      rw [not_not.1 hq]
      exact ⟨t, rfl, ht⟩

section Values

variable {P : Platform F} {parse_value_ : Bytes → Except Exception (Value F × Bytes)}

/-- The parser reads only texts of the grammar, with white space around them. -/
def Sound (P : Platform F) (parse_value_ : Bytes → Except Exception (Value F × Bytes)) : Prop :=
  ∀ source v rest, parse_value_ source = .ok (v, rest) →
    ∃ t, source = t ++ rest ∧ Padded is_space (Text P) t v

theorem parse_elements_sound (hp : Sound P parse_value_)
    (h : parse_elements parse_value_ fuel result source = .ok (out, rest)) :
    ∃ t vs, source = t ++ char ']' :: rest ∧ out = result ++ vs ∧
      Separated (char ',') (Padded is_space (Text P)) t vs := by
  induction fuel generalizing result source with
  | zero => cases h
  | succ fuel ih =>
    obtain ⟨⟨v, source₁⟩, hv, h₁⟩ := bind_eq_ok.1 h
    obtain ⟨t, rfl, ht⟩ := hp _ _ _ hv
    obtain ⟨w, hw, hsource⟩ := skip_white_spaces_spec source₁
    dsimp only at h₁
    split at h₁
    · cases h₁
    · rename_i delimiter source₂ hskip
      rw [hskip] at hsource
      subst hsource
      split at h₁
      · rename_i hd
        cases h₁
        rw [hd]
        exact ⟨_, _, (List.append_assoc ..).symm, rfl, .single (ht.right hw)⟩
      · split at h₁
        · cases h₁
        · rename_i hd
          obtain ⟨w', hw', hsource⟩ := skip_white_spaces_spec source₂
          split at h₁
          · cases h₁
          · rename_i ch source₃ hskip'
            rw [hskip'] at hsource
            split at h₁
            · cases h₁
            · obtain ⟨t', vs, ht', rfl, hvs⟩ := ih h₁
              rw [hsource, ht', not_not.1 hd]
              refine ⟨t ++ w ++ char ',' :: (w' ++ t'), v :: vs, ?_, ?_, ?_⟩
              · simp only [List.append_assoc, List.cons_append]
              · rw [List.append_assoc]
                rfl
              · exact .cons (ht.right hw) (hvs.left fun _ _ => Padded.left hw')

theorem parse_array_sound (hp : Sound P parse_value_)
    (h : parse_array_ parse_value_ source = .ok (v, rest)) :
    ∃ t, char '[' :: source = t ++ rest ∧ Padded is_space (Text P) t v := by
  unfold parse_array_ at h
  obtain ⟨w, hw, hsource⟩ := skip_white_spaces_spec source
  split at h
  · cases h
  · rename_i ch source₁ hskip
    rw [hskip] at hsource
    subst hsource
    split at h
    · rename_i hch
      cases h
      obtain ⟨w', hw', hrest⟩ := skip_white_spaces_spec source₁
      refine ⟨char '[' :: w ++ [ch] ++ w', ?_, ?_⟩
      · conv_lhs => rw [hrest]
        simp only [List.append_assoc, List.cons_append, List.nil_append]
      · rw [hch]
        exact (Padded.of (.empty_array hw)).right hw'
    · obtain ⟨⟨vs, source₂⟩, hvs, h₁⟩ := bind_eq_ok.1 h
      cases h₁
      obtain ⟨t, vs', ht, rfl, hsep⟩ := parse_elements_sound hp hvs
      obtain ⟨w', hw', hrest⟩ := skip_white_spaces_spec source₂
      refine ⟨char '[' :: (w ++ t) ++ [char ']'] ++ w', ?_, ?_⟩
      · rw [ht]
        conv_lhs => rw [hrest]
        simp only [List.append_assoc, List.cons_append, List.nil_append]
      · exact (Padded.of (.array (hsep.left fun _ _ => Padded.left hw))).right hw'

theorem Member.left {G : Bytes → Value F → Prop} (hw : Spaces w) (h : Member G t m) :
    Member G (w ++ t) m := by
  obtain ⟨hv, hk, hw', ht⟩ := h
  have hm := Member.mk (w := w ++ _) (fun ch hch => (List.mem_append.1 hch).elim (hw ch) (hv ch))
    hk hw' ht
  simpa only [List.append_assoc, List.cons_append] using hm

theorem parse_members_sound (hp : Sound P parse_value_)
    (h : parse_members parse_value_ fuel result source = .ok (out, rest)) :
    ∃ t ms, source = t ++ rbrace :: rest ∧
      out = ms.foldl (fun ms m => insert_or_assign ms m.1 m.2) result ∧
      Separated (char ',') (Member (Padded is_space (Text P))) t ms := by
  induction fuel generalizing result source with
  | zero => cases h
  | succ fuel ih =>
    simp only [parse_members] at h
    split at h
    · cases h
    · rename_i ch source₀
      split at h
      · cases h
      · obtain ⟨⟨key, source₁⟩, hkey, h₁⟩ := bind_eq_ok.1 h
        obtain ⟨k, hk, hchars⟩ := parse_string_sound hkey
        obtain ⟨w, hw, hsource⟩ := skip_white_spaces_spec source₁
        dsimp only at h₁
        split at h₁
        · cases h₁
        · rename_i colon source₂ hskip
          rw [hskip] at hsource
          split at h₁
          · cases h₁
          · rename_i hcolon
            obtain ⟨w', hw', hsource'⟩ := skip_white_spaces_spec source₂
            obtain ⟨⟨v, source₃⟩, hv, h₂⟩ := bind_eq_ok.1 h₁
            obtain ⟨t, hv', ht⟩ := hp _ _ _ hv
            obtain ⟨w₂, hw₂, hsource₃⟩ := skip_white_spaces_spec source₃
            have hmember : Member (Padded is_space (Text P))
                ([] ++ quote :: k ++ quote :: w ++ char ':' :: (w' ++ t ++ w₂)) (key, v) :=
              .mk nofun hchars hw ((ht.left hw').right hw₂)
            have hread : ch :: source₀ = [] ++ quote :: k ++ quote :: w ++
                char ':' :: (w' ++ t ++ w₂) ++ skip_white_spaces_ source₃ := by
              rw [hk, hsource, hsource', hv', not_not.1 hcolon]
              conv_lhs => rw [hsource₃]
              simp only [List.append_assoc, List.cons_append, List.nil_append]
            rw [hread]
            clear h h₁ hkey hk hsource hsource' hv hv' hsource₃ hread
            dsimp only at h₂
            split at h₂
            · cases h₂
            · rename_i delimiter source₄ hskip₄
              rw [hskip₄]
              split at h₂
              · rename_i hd
                cases h₂
                rw [hd]
                exact ⟨_, _, rfl, rfl, .single hmember⟩
              · split at h₂
                · cases h₂
                · rename_i hd
                  obtain ⟨w₄, hw₄, hsource₄⟩ := skip_white_spaces_spec source₄
                  split at h₂
                  · cases h₂
                  · rename_i ch' source₅ hskip₅
                    rw [hskip₅] at hsource₄
                    split at h₂
                    · cases h₂
                    · obtain ⟨t', ms, ht', rfl, hms⟩ := ih h₂
                      rw [hsource₄, ht', not_not.1 hd]
                      refine ⟨_, _, ?_, rfl, .cons hmember (hms.left fun _ _ => Member.left hw₄)⟩
                      simp only [List.append_assoc, List.cons_append, List.nil_append]

theorem parse_object_sound (hp : Sound P parse_value_)
    (h : parse_object_ parse_value_ source = .ok (v, rest)) :
    ∃ t, lbrace :: source = t ++ rest ∧ Padded is_space (Text P) t v := by
  unfold parse_object_ at h
  obtain ⟨w, hw, hsource⟩ := skip_white_spaces_spec source
  split at h
  · cases h
  · rename_i ch source₁ hskip
    rw [hskip] at hsource
    subst hsource
    split at h
    · rename_i hch
      cases h
      obtain ⟨w', hw', hrest⟩ := skip_white_spaces_spec source₁
      refine ⟨lbrace :: w ++ [ch] ++ w', ?_, ?_⟩
      · conv_lhs => rw [hrest]
        simp only [List.append_assoc, List.cons_append, List.nil_append]
      · rw [hch]
        exact (Padded.of (.empty_object hw)).right hw'
    · obtain ⟨⟨ms, source₂⟩, hms, h₁⟩ := bind_eq_ok.1 h
      cases h₁
      obtain ⟨t, ms', ht, rfl, hsep⟩ := parse_members_sound hp hms
      obtain ⟨w', hw', hrest⟩ := skip_white_spaces_spec source₂
      refine ⟨lbrace :: (w ++ t) ++ [rbrace] ++ w', ?_, ?_⟩
      · rw [ht]
        conv_lhs => rw [hrest]
        simp only [List.append_assoc, List.cons_append, List.nil_append]
      · exact (Padded.of (.object (hsep.left fun _ _ => Member.left hw))).right hw'

theorem parse_literal_sound (h : parse_literal str v₀ what source = .ok (v, rest)) :
    source = str ++ rest ∧ v = (v₀ : Value F) := by
  unfold parse_literal at h
  split at h
  · cases h
    exact ⟨next_n_characters_are_sound ‹_›, rfl⟩
  · cases h

theorem parse_value_sound (P : Platform F) (fuel : Nat) : Sound P (P.parse_value_ fuel) := by
  induction fuel with
  | zero => exact fun _ _ _ h => nomatch h
  | succ fuel ih =>
    intro source v rest h
    obtain ⟨w, hw, hsource⟩ := skip_white_spaces_spec source
    have hpad : ∀ t, skip_white_spaces_ source = t ++ rest → Padded is_space (Text P) t v →
        ∃ t, source = t ++ rest ∧ Padded is_space (Text P) t v := fun t ht htext => by
      rw [hsource, ht, ← List.append_assoc]
      exact ⟨_, rfl, htext.left hw⟩
    rw [Platform.parse_value_] at h
    split at h
    · cases h
    · rename_i peek source₁ hskip
      rw [hskip] at hpad
      split at h
      · obtain ⟨ht, rfl⟩ := parse_literal_sound h
        exact hpad _ ht (.of .null)
      · split at h
        · obtain ⟨ht, rfl⟩ := parse_literal_sound h
          exact hpad _ ht (.of .boolean_true)
        · split at h
          · obtain ⟨ht, rfl⟩ := parse_literal_sound h
            exact hpad _ ht (.of .boolean_false)
          · split at h
            · obtain ⟨⟨s, source₂⟩, hs, h₁⟩ := bind_eq_ok.1 h
              cases h₁
              obtain ⟨t, ht, hchars⟩ := parse_string_sound hs
              refine hpad (quote :: t ++ [quote]) ?_ (.of (.string hchars))
              rw [ht, List.append_assoc]
              rfl
            · split at h
              · rename_i hpeek
                rw [hpeek] at hpad
                obtain ⟨t, ht, htext⟩ := parse_array_sound ih h
                exact hpad t ht htext
              · split at h
                · rename_i hpeek
                  rw [hpeek] at hpad
                  obtain ⟨t, ht, htext⟩ := parse_object_sound ih h
                  exact hpad t ht htext
                · split at h
                  · obtain ⟨t, x, ht, rfl, hx⟩ := parse_number_sound h
                    exact hpad t ht (.of (.number hx))
                  · cases h

end Values

end Coio.JsonRpc
