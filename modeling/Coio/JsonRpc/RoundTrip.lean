import Coio.JsonRpc.Dump

namespace Coio.JsonRpc
open Grammar
set_option autoImplicit true

mutual

/-- What holds of every number and every string in a value, and of the keys of every object. -/
def Value.All (number : Number F → Prop) (string : Bytes → Prop) (keys : List Bytes → Prop) :
    Value F → Prop
  | .null => True
  | .boolean _ => True
  | .number x => number x
  | .string s => string s
  | .array arr => Value.AllElements number string keys arr
  | .object obj => keys (obj.map Prod.fst) ∧ Value.AllMembers number string keys obj

def Value.AllElements (number : Number F → Prop) (string : Bytes → Prop)
    (keys : List Bytes → Prop) : List (Value F) → Prop
  | [] => True
  | v :: vs => v.All number string keys ∧ Value.AllElements number string keys vs

def Value.AllMembers (number : Number F → Prop) (string : Bytes → Prop)
    (keys : List Bytes → Prop) : List (Bytes × Value F) → Prop
  | [] => True
  | (k, v) :: ms =>
    string k ∧ v.All number string keys ∧ Value.AllMembers number string keys ms

end

/-- An object is a map. -/
def Value.Valid (v : Value F) : Prop := v.All (fun _ => True) (fun _ => True) List.Nodup

/-- The text of the number is read as the number itself. -/
def Platform.Exact (P : Platform F) : Number F → Prop
  | .integer _ => True
  | .floating x => P.to_string x ∉ not_finite ∧ P.from_chars (P.to_string x) = some x

def Platform.Faithful (P : Platform F) (v : Value F) : Prop :=
  v.All P.Exact (fun s => s.all P.plain = true) fun _ => True

def Ascii (s : Bytes) : Prop := ∀ ch ∈ s, ch.toNat < 128

section Members

variable {number : Number F → Prop} {string : Bytes → Prop} {keys : List Bytes → Prop}

theorem Value.all_elements {vs : List (Value F)} :
    Value.AllElements number string keys vs ↔ ∀ v ∈ vs, v.All number string keys := by
  induction vs with
  | nil => exact ⟨fun _ => nofun, fun _ => trivial⟩
  | cons v vs ih => rw [Value.AllElements, ih, List.forall_mem_cons]

theorem Value.all_members {ms : List (Bytes × Value F)} :
    Value.AllMembers number string keys ms ↔
      ∀ m ∈ ms, string m.1 ∧ m.2.All number string keys := by
  induction ms with
  | nil => exact ⟨fun _ => nofun, fun _ => trivial⟩
  | cons m ms ih => rw [Value.AllMembers, ih, List.forall_mem_cons, and_assoc]

theorem insert_or_assign_mem {ms : List (Bytes × Value F)} (h : m ∈ insert_or_assign ms k v) :
    m ∈ ms ∨ m = (k, v) := by
  induction ms with
  | nil => exact .inr (List.mem_singleton.1 h)
  | cons n ms ih =>
    rw [insert_or_assign] at h
    split at h
    · rcases List.mem_cons.1 h with rfl | h
      · exact .inr rfl
      · exact .inl (.tail _ h)
    · rcases List.mem_cons.1 h with rfl | h
      · exact .inl (.head _)
      · exact (ih h).imp_left (.tail _)

theorem insert_or_assign_keys (ms : List (Bytes × Value F)) (k : Bytes) (v : Value F) :
    (insert_or_assign ms k v).map Prod.fst =
      if k ∈ ms.map Prod.fst then ms.map Prod.fst else ms.map Prod.fst ++ [k] := by
  induction ms with
  | nil => rfl
  | cons m ms ih =>
    rw [insert_or_assign]
    by_cases hm : m.1 = k
    · rw [if_pos hm, List.map_cons, List.map_cons, hm, if_pos (.head _)]
    · rw [if_neg hm, List.map_cons, ih, List.map_cons]
      by_cases hk : k ∈ ms.map Prod.fst
      · rw [if_pos hk, if_pos (.tail _ hk)]
      · have hk' : k ∉ m.1 :: ms.map Prod.fst := fun h =>
          (List.mem_cons.1 h).elim (fun he => hm he.symm) hk
        rw [if_neg hk, if_neg hk', List.cons_append]

theorem insert_or_assign_nodup {ms : List (Bytes × Value F)} (h : (ms.map Prod.fst).Nodup)
    (k : Bytes) (v : Value F) : ((insert_or_assign ms k v).map Prod.fst).Nodup := by
  rw [insert_or_assign_keys]
  split
  · exact h
  · rename_i hk
    refine List.nodup_append.2 ⟨h, List.pairwise_singleton _ k, fun k' hk' l hl he => hk ?_⟩
    rwa [← List.mem_singleton.1 hl, ← he]

theorem insert_or_assign_new {ms : List (Bytes × Value F)} (h : k ∉ ms.map Prod.fst)
    (v : Value F) : insert_or_assign ms k v = ms ++ [(k, v)] := by
  induction ms with
  | nil => rfl
  | cons m ms ih =>
    rw [List.map_cons, List.mem_cons, not_or] at h
    rw [insert_or_assign, if_neg (Ne.symm h.1), ih h.2, List.cons_append]

theorem foldl_insert_append {ms acc : List (Bytes × Value F)}
    (h : ((acc ++ ms).map Prod.fst).Nodup) :
    ms.foldl (fun ms m => insert_or_assign ms m.1 m.2) acc = acc ++ ms := by
  induction ms generalizing acc with
  | nil => exact (List.append_nil acc).symm
  | cons m ms ih =>
    have hm : m.1 ∉ acc.map Prod.fst := by
      rw [List.map_append, List.map_cons] at h
      exact fun hmem => (List.nodup_append.1 h).2.2 _ hmem _ (.head _) rfl
    rw [List.foldl_cons, insert_or_assign_new hm, ih (by rwa [List.append_assoc]),
      List.append_assoc]
    rfl

/-- Distinct keys replace nothing. -/
theorem foldl_insert {ms : List (Bytes × Value F)} (h : (ms.map Prod.fst).Nodup) :
    ms.foldl (fun ms m => insert_or_assign ms m.1 m.2) [] = ms :=
  foldl_insert_append h

end Members

section Reread

variable {F : Type} {P : Platform F}

theorem reread_number_self (x : Number F) : P.reread_number x = some x ↔ P.Exact x := by
  cases x with
  | integer n => exact ⟨fun _ => trivial, fun _ => rfl⟩
  | floating x =>
    rw [Platform.reread_number, Option.ite_none_left_eq_some, Option.map_eq_some_iff]
    refine and_congr_right fun _ => ⟨fun hy => ?_, fun h => ⟨x, h, rfl⟩⟩
    obtain ⟨y, hy, he⟩ := hy
    cases he
    exact hy

theorem reread_object_keys {ms ms' : List (Bytes × Value F)} (h : P.reread_object ms = some ms') :
    ms'.map Prod.fst = ms.map Prod.fst := by
  induction ms generalizing ms' with
  | nil =>
    cases h
    rfl
  | cons m ms ih =>
    obtain ⟨-, h⟩ := Option.ite_none_right_eq_some.1 h
    obtain ⟨v, -, h⟩ := Option.bind_eq_some_iff.1 h
    obtain ⟨ms', hms, rfl⟩ := Option.map_eq_some_iff.1 h
    exact congrArg (m.1 :: ·) (ih hms)

mutual

theorem reread_self : ∀ v : Value F, v.Valid → (P.reread v = some v ↔ P.Faithful v)
  | .null, _ => ⟨fun _ => trivial, fun _ => rfl⟩
  | .boolean _, _ => ⟨fun _ => trivial, fun _ => rfl⟩
  | .number x, _ => by
    rw [Platform.reread, Option.map_eq_some_iff]
    refine ⟨fun ⟨y, hy, he⟩ => ?_, fun h => ⟨x, (reread_number_self x).2 h, rfl⟩⟩
    cases he
    exact (reread_number_self x).1 hy
  | .string s, _ => by
    rw [Platform.reread, Option.ite_none_right_eq_some, and_iff_left rfl]
    exact .rfl
  | .array vs, hv => by
    rw [Platform.reread, Option.map_eq_some_iff]
    refine ⟨fun ⟨vs', hvs, he⟩ => ?_, fun h => ⟨vs, (reread_array_self vs hv).2 h, rfl⟩⟩
    cases he
    exact (reread_array_self vs hv).1 hvs
  | .object ms, hv => by
    rw [Platform.reread, Option.map_eq_some_iff]
    refine ⟨fun ⟨ms', hms, he⟩ => ?_, fun h => ?_⟩
    · have hkeys : (ms'.map Prod.fst).Nodup := by
        rw [reread_object_keys hms]
        exact hv.1
      rw [foldl_insert hkeys] at he
      cases he
      exact ⟨trivial, (reread_object_self ms hv.2).1 hms⟩
    · exact ⟨ms, (reread_object_self ms hv.2).2 h.2, by rw [foldl_insert hv.1]⟩

theorem reread_array_self : ∀ vs : List (Value F),
    Value.AllElements (fun _ => True) (fun _ => True) List.Nodup vs →
      (P.reread_array vs = some vs ↔
        Value.AllElements P.Exact (fun s => s.all P.plain = true) (fun _ => True) vs)
  | [], _ => ⟨fun _ => trivial, fun _ => rfl⟩
  | v :: vs, hv => by
    rw [Platform.reread_array, Option.bind_eq_some_iff]
    refine ⟨fun ⟨v', hv', h⟩ => ?_, fun h => ?_⟩
    · obtain ⟨vs', hvs, he⟩ := Option.map_eq_some_iff.1 h
      cases he
      exact ⟨(reread_self v hv.1).1 hv', (reread_array_self vs hv.2).1 hvs⟩
    · exact ⟨v, (reread_self v hv.1).2 h.1, by rw [(reread_array_self vs hv.2).2 h.2]; rfl⟩

theorem reread_object_self : ∀ ms : List (Bytes × Value F),
    Value.AllMembers (fun _ => True) (fun _ => True) List.Nodup ms →
      (P.reread_object ms = some ms ↔
        Value.AllMembers P.Exact (fun s => s.all P.plain = true) (fun _ => True) ms)
  | [], _ => ⟨fun _ => trivial, fun _ => rfl⟩
  | (k, v) :: ms, hv => by
    rw [Platform.reread_object, Option.ite_none_right_eq_some, Option.bind_eq_some_iff]
    refine and_congr_right fun hk => ⟨fun ⟨v', hv', h⟩ => ?_, fun h => ?_⟩
    · obtain ⟨ms', hms, he⟩ := Option.map_eq_some_iff.1 h
      cases he
      exact ⟨(reread_self v hv.2.1).1 hv', (reread_object_self ms hv.2.2).1 hms⟩
    · exact ⟨v, (reread_self v hv.2.1).2 h.1, by rw [(reread_object_self ms hv.2.2).2 h.2]; rfl⟩

end

end Reread

section Parsed

variable {F : Type} {P : Platform F}

/-- What the parser takes for a string. -/
def legible (ch : UInt8) : Prop := ch ∈ escaped ∨ ¬ ch < 0x20

theorem unescape_legible (h : unescape e = .ok ch) : legible ch := by
  unfold unescape at h
  (repeat' split at h) <;> first
    | cases h
      exact .inl (by decide)
    | cases h
      exact .inr (by decide)
    | cases h

theorem Characters.legible (h : Characters t s) : ∀ ch ∈ s, legible ch := by
  induction h with
  | nil => exact List.forall_mem_nil _
  | plain hq hc hb ht ih => exact List.forall_mem_cons.2 ⟨.inr hc, ih⟩
  | escaped he ht ih => exact List.forall_mem_cons.2 ⟨unescape_legible he, ih⟩

theorem foldl_insert_all {number : Number F → Prop} {string : Bytes → Prop}
    {ms acc : List (Bytes × Value F)}
    (hms : ∀ m ∈ ms, string m.1 ∧ m.2.All number string List.Nodup)
    (hacc : (Value.object acc).All number string List.Nodup) :
    (Value.object (ms.foldl (fun ms m => insert_or_assign ms m.1 m.2) acc)).All
      number string List.Nodup := by
  induction ms generalizing acc with
  | nil => exact hacc
  | cons m ms ih =>
    obtain ⟨hm, hms⟩ := List.forall_mem_cons.1 hms
    refine ih hms ⟨insert_or_assign_nodup hacc.1 _ _, Value.all_members.2 fun m' hm' => ?_⟩
    rcases insert_or_assign_mem hm' with hm' | rfl
    · exact Value.all_members.1 hacc.2 m' hm'
    · exact hm

/-- The induction is on the length of the text: what is inside of brackets is shorter. -/
theorem Text.all {number : Number F → Prop} {string : Bytes → Prop}
    (hnumber : ∀ t x, NumberText P t x → number x) (hstring : ∀ t s, Characters t s → string s)
    (n : Nat) (hn : t.length < n) (h : Text P t v) : v.All number string List.Nodup := by
  induction n generalizing t v with
  | zero => exact absurd hn (Nat.not_lt_zero _)
  | succ n ih =>
    have hpadded : ∀ t v, t.length < n → Padded is_space (Text P) t v →
        v.All number string List.Nodup := by
      rintro _ _ hlen ⟨hw, ht, hw'⟩
      refine ih ?_ ht
      simp only [List.length_append] at hlen
      omega
    have hinner : ∀ {ts : Bytes} {a b : UInt8}, (a :: ts ++ [b]).length < n + 1 →
        ts.length < n := by
      intro ts a b hn
      simp only [List.length_append, List.length_cons, List.length_nil] at hn
      omega
    cases h with
    | number hx => exact hnumber _ _ hx
    | string ht => exact hstring _ _ ht
    | array hvs =>
      refine Value.all_elements.2 (hvs.forall fun t' v hlen hv => ?_)
      exact hpadded t' v (Nat.lt_of_le_of_lt hlen (hinner hn)) hv
    | empty_object hw => exact ⟨List.nodup_nil, trivial⟩
    | @object t ms hms =>
      have hmembers : ∀ m ∈ ms, string m.1 ∧ m.2.All number string List.Nodup :=
        hms.forall fun t' m hlen hm => by
          obtain ⟨hw, hk, hw', ht⟩ := hm
          refine ⟨hstring _ _ hk, hpadded _ _ ?_ ht⟩
          have := hinner hn
          simp only [List.length_append, List.length_cons] at hlen
          omega
      exact foldl_insert_all hmembers ⟨List.nodup_nil, trivial⟩
    | _ => trivial

theorem plain_legible (h : legible ch) :
    P.plain ch = true ↔ (P.char_signed = true → ch.toNat < 128) := by
  rw [Platform.plain, Bool.or_eq_true, decide_eq_true_iff, decide_eq_true_iff]
  have hall : escaped.all (fun ch => ch.toNat < 128) = true := rfl
  have hescaped : ∀ ch ∈ escaped, ch.toNat < 128 := fun ch hch =>
    of_decide_eq_true (List.all_eq_true.1 hall ch hch)
  by_cases hch : ch ∈ escaped
  · exact ⟨fun _ _ => hescaped ch hch, fun _ => .inl hch⟩
  · have hspace : 32 ≤ ch.toNat := Nat.not_lt.1 (h.resolve_left hch)
    rw [or_iff_right hch, Platform.int]
    split
    · rename_i hneg
      have hlt := ch.toNat_lt
      exact ⟨fun h => by omega, fun h => absurd (h hneg.1) (by omega)⟩
    · rename_i hpos
      exact ⟨fun _ hsigned => Nat.not_le.1 fun hlen => hpos ⟨hsigned, hlen⟩, fun _ => by omega⟩

theorem all_plain_legible {s : Bytes} (h : ∀ ch ∈ s, legible ch) :
    s.all P.plain = true ↔ (P.char_signed = true → Ascii s) := by
  rw [List.all_eq_true]
  refine ⟨fun hs hsigned ch hch => ?_, fun hs ch hch => ?_⟩
  · exact (plain_legible (h ch hch)).1 (hs ch hch) hsigned
  · exact (plain_legible (h ch hch)).2 fun hsigned => hs hsigned ch hch

section Congruence

variable {number : Number F → Prop} {string string₁ string₂ : Bytes → Prop}
  {keys : List Bytes → Prop}

mutual

theorem Value.all_congr (h : ∀ s, string s → (string₁ s ↔ string₂ s)) :
    ∀ v : Value F, v.All (fun _ => True) string List.Nodup →
      (v.All number string₁ keys ↔ v.All number string₂ keys)
  | .null, _ => .rfl
  | .boolean _, _ => .rfl
  | .number _, _ => .rfl
  | .string s, hv => h s hv
  | .array vs, hv => Value.all_elements_congr h vs hv
  | .object ms, hv => and_congr_right fun _ => Value.all_members_congr h ms hv.2

theorem Value.all_elements_congr (h : ∀ s, string s → (string₁ s ↔ string₂ s)) :
    ∀ vs : List (Value F),
    Value.AllElements (fun _ => True) string List.Nodup vs →
      (Value.AllElements number string₁ keys vs ↔ Value.AllElements number string₂ keys vs)
  | [], _ => .rfl
  | v :: vs, hv => and_congr (Value.all_congr h v hv.1) (Value.all_elements_congr h vs hv.2)

theorem Value.all_members_congr (h : ∀ s, string s → (string₁ s ↔ string₂ s)) :
    ∀ ms : List (Bytes × Value F),
    Value.AllMembers (fun _ => True) string List.Nodup ms →
      (Value.AllMembers number string₁ keys ms ↔ Value.AllMembers number string₂ keys ms)
  | [], _ => .rfl
  | (k, v) :: ms, hv => and_congr (h k hv.1)
      (and_congr (Value.all_congr h v hv.2.1) (Value.all_members_congr h ms hv.2.2))

end

end Congruence

theorem parse_all (h : P.parse source = .ok v) :
    v.All (fun _ => True) (fun s => ∀ ch ∈ s, legible ch) List.Nodup := by
  obtain ⟨hw, ht, hw'⟩ := ((parse_grammar P source).1 v).1 h
  exact Text.all (fun _ _ _ => trivial) (fun _ _ => Characters.legible) _ (Nat.lt_succ_self _) ht

/-- A value is read back from its text if and only if its numbers and strings are, and what is
parsed is a valid value, whose strings are read back unless `char` is signed and they are not in
ASCII. -/
theorem round_trip (P : Platform F) (hP : P.Standard) :
    (∀ v : Value F, v.Valid → (P.parse (P.dump v) = .ok v ↔ P.Faithful v)) ∧
    ∀ source v, P.parse source = .ok v → v.Valid ∧ (P.parse (P.dump v) = .ok v ↔
      v.All P.Exact (fun s => P.char_signed = true → Ascii s) fun _ => True) := by
  have hvalid : ∀ v : Value F, v.Valid → (P.parse (P.dump v) = .ok v ↔ P.Faithful v) :=
    fun v hv => (parse_dump hP).trans (reread_self v hv)
  refine ⟨hvalid, fun source v h => ?_⟩
  have hall := parse_all h
  have hv : v.Valid :=
    (Value.all_congr (fun s hs => ⟨fun _ => trivial, fun _ => hs⟩) v hall).1 hall
  exact ⟨hv, (hvalid v hv).trans (Value.all_congr (fun s hs => all_plain_legible hs) v hall)⟩

/-- A platform with one half and infinity as its floating-point numbers. -/
def half (char_signed : Bool) : Platform Bool where
  char_signed := char_signed
  to_string x := if x then text ['i', 'n', 'f'] else text ['0', '.', '5', '0', '0', '0', '0', '0']
  from_chars t := if t = text ['0', '.', '5', '0', '0', '0', '0', '0'] then some false else none

theorem half_standard (char_signed : Bool) : (half char_signed).Standard
  | true => .inl (.head _)
  | false => .inr ⟨[], [char '0'], text ['5', '0', '0', '0', '0', '0'], .none, .zero,
      ⟨List.cons_ne_nil _ _, List.all_eq_true.1 rfl⟩, rfl⟩

/-- One half and a letter in UTF-8. -/
def half_letter : Value Bool := .array [.number (.floating false), .string [0xc3, 0xa9]]

/-- The letter is lost where `char` is signed. -/
theorem round_trip_utf8 : (half false).parse ((half false).dump half_letter) = .ok half_letter ∧
    (half true).parse ((half true).dump half_letter) ≠ .ok half_letter := by
  have hvalid : half_letter.Valid := ⟨trivial, trivial, trivial⟩
  have hplain : ∀ c, [0xc3, 0xa9].all (half c).plain = true ↔ c = false := by decide
  refine ⟨((round_trip (half false) (half_standard false)).1 _ hvalid).2 ?_, fun h => ?_⟩
  · exact ⟨⟨by decide, rfl⟩, (hplain false).2 rfl, trivial⟩
  · have hletter := (((round_trip (half true) (half_standard true)).1 _ hvalid).1 h).2.1
    cases (hplain true).1 hletter

end Parsed

end Coio.JsonRpc
