import ResourcePki.Json.Reader
import Mathlib.Data.List.TakeDrop
import Mathlib.Tactic.Common

/-! The text of a JSON value reads back as that value. Values are read one inside the other, so the
statement is about a value with a text after it (`ReadsBack`); what may follow a value in a text is
`Stops`, and the fuel that a value takes is at most twice its length. -/

namespace ResourcePki

namespace Text

theorem digits?_append (base n : Nat) (cs ds : List Char) :
    digits? base n (cs ++ ds) = (digits? base n cs).bind fun m => digits? base m ds := by
  induction cs generalizing n with
  | nil => rfl
  | cons c cs ih =>
    rw [List.cons_append, digits?, digits?]
    cases digit? base c with
    | none => rfl
    | some d => exact ih (n * base + d)

theorem digits?_toDigits (n : Nat) : digits? 10 0 (Nat.toDigits 10 n) = some n := by
  have hdigit : ∀ d < 10, ∀ m, digits? 10 m [Nat.digitChar d] = some (m * 10 + d) := by
    intro d hd m
    have hread : ∀ d < 10, digit? 10 (Nat.digitChar d) = some d := by decide
    rw [digits?, hread d hd]
    rfl
  induction n using Nat.strongRecOn with
  | _ n ih =>
    by_cases hn : n < 10
    · rw [Nat.toDigits_of_lt_base hn, hdigit n hn, Nat.zero_mul, Nat.zero_add]
    · rw [Nat.toDigits_of_base_le (by decide) (Nat.le_of_not_lt hn), digits?_append,
        ih (n / 10) (by omega), Option.bind_some, hdigit _ (Nat.mod_lt n (by decide))]
      exact congrArg some (by omega)

/-- Only the numeral of zero begins with a zero. -/
theorem head_toDigits {n : Nat} (h : 0 < n) : (Nat.toDigits 10 n).head? ≠ some '0' := by
  induction n using Nat.strongRecOn with
  | _ n ih =>
    by_cases hn : n < 10
    · have hdigit : ∀ d < 10, 0 < d → Nat.digitChar d ≠ '0' := by decide
      rw [Nat.toDigits_of_lt_base hn, List.head?_cons]
      exact fun heq => hdigit n hn h (Option.some.inj heq)
    · rw [Nat.toDigits_of_base_le (by decide) (Nat.le_of_not_lt hn),
        List.head?_append, Option.or_of_isSome (List.isSome_head?.mpr Nat.toDigits_ne_nil)]
      exact ih (n / 10) (by omega) (by omega)

theorem isDigit_toDigits {n : Nat} {c : Char} (h : c ∈ Nat.toDigits 10 n) : c.isDigit = true :=
  Nat.isDigit_of_mem_toDigits (by decide) (by decide) h

end Text

namespace Json

/-! Strings -/

theorem one_le_length_escapeChar (c : Char) : 1 ≤ (escapeChar c).length := by
  unfold escapeChar
  split_ifs <;> simp

theorem length_le_escaped (cs : List Char) : cs.length ≤ (cs.flatMap escapeChar).length := by
  induction cs with
  | nil => exact Nat.le_refl _
  | cons c cs ih =>
    have hc := one_le_length_escapeChar c
    rw [List.length_cons, List.flatMap_cons, List.length_append]
    omega

theorem escape?_control (c : Char) (h : c.toNat < 32) (rest : List Char) :
    escape? ('u' :: '0' :: '0' :: hexByte c.toNat ++ rest) = some (c, rest) := by
  have hdigits : ∀ n < 32, Text.digits? 16 0 ('0' :: '0' :: hexByte n) = some n := by decide
  have hunit : codeUnit? ('0' :: '0' :: hexByte c.toNat ++ rest) = some (c.toNat, rest) :=
    congrArg (Option.map (·, rest)) (hdigits c.toNat h)
  change unicodeEscape? ('0' :: '0' :: hexByte c.toNat ++ rest) = _
  rw [unicodeEscape?, hunit, Option.bind_eq_bind, Option.bind_some]
  dsimp only
  rw [if_pos (.inl (by omega)), Char.ofNat_toNat]
  rfl

theorem stringRest?_escapeChar (fuel : Nat) (done : List Char) (c : Char) (rest : List Char) :
    stringRest? (fuel + 1) done (escapeChar c ++ rest) = stringRest? fuel (c :: done) rest := by
  unfold escapeChar
  split_ifs with h₁ h₂ h₃ h₄ h₅ h₆ h₇ h₈
  · rw [h₁]; rfl
  · rw [h₂]; rfl
  · rw [h₃]; rfl
  · rw [h₄]; rfl
  · rw [h₅]; rfl
  · rw [h₆]; rfl
  · rw [h₇]; rfl
  · change stringRest? (fuel + 1) done ('\\' :: ('u' :: '0' :: '0' :: hexByte c.toNat ++ rest)) = _
    rw [stringRest?, escape?_control c h₈]
    rfl
  · change stringRest? (fuel + 1) done (c :: rest) = _
    rw [stringRest?.eq_5 done fuel c rest h₁ h₂, if_neg h₈]

theorem stringRest?_escaped {cs : List Char} {fuel : Nat} (h : cs.length < fuel)
    (done rest : List Char) :
    stringRest? fuel done (cs.flatMap escapeChar ++ '"' :: rest) =
      some (.ofList (done.reverse ++ cs), rest) := by
  induction cs generalizing fuel done with
  | nil =>
    obtain ⟨fuel, rfl⟩ := Nat.exists_eq_add_of_lt h
    rw [List.append_nil]
    rfl
  | cons c cs ih =>
    obtain ⟨fuel, rfl⟩ : ∃ n, fuel = n + 1 := ⟨fuel - 1, by omega⟩
    rw [List.flatMap_cons, List.append_assoc, stringRest?_escapeChar,
      ih (by rw [List.length_cons] at h; omega), List.reverse_cons, List.append_assoc]
    rfl

/-- The rest of a quoted string after its opening quote. -/
theorem stringRest?_quote (s : String) (rest : List Char) :
    ∃ cs, quote s ++ rest = '"' :: cs ∧
      stringRest? (cs.length + 1) [] cs = some (s, rest) := by
  refine ⟨s.toList.flatMap escapeChar ++ '"' :: rest, ?_, ?_⟩
  · rw [quote, List.append_assoc]
    rfl
  · have hlength := length_le_escaped s.toList
    rw [stringRest?_escaped (by rw [List.length_append]; omega), List.reverse_nil, List.nil_append,
      String.ofList_toList]

/-! Numbers -/

/-- What may follow a value in a text. -/
inductive Stops : List Char → Prop
  | nil : Stops []
  | comma (rest : List Char) : Stops (',' :: rest)
  | bracket (rest : List Char) : Stops (']' :: rest)
  | brace (rest : List Char) : Stops ('\x7d' :: rest)

theorem spanDigits_append {ds rest : List Char} (hds : ∀ c ∈ ds, c.isDigit = true)
    (h : Stops rest) : spanDigits (ds ++ rest) = (ds, rest) := by
  have hrest : rest.takeWhile Char.isDigit = [] ∧ rest.dropWhile Char.isDigit = rest := by
    cases h <;> exact ⟨rfl, rfl⟩
  rw [spanDigits, List.span_eq_takeWhile_dropWhile, List.takeWhile_append_of_pos hds,
    List.dropWhile_append_of_pos hds, hrest.1, hrest.2, List.append_nil]

theorem whole?_toDigits (n : Nat) {rest : List Char} (h : Stops rest) :
    whole? (Nat.toDigits 10 n ++ rest) = some (Nat.toDigits 10 n, rest) := by
  have hspan := spanDigits_append (fun c => Text.isDigit_toDigits (n := n) (c := c)) h
  unfold whole?
  rw [hspan]
  split
  · rename_i heq
    exact absurd (Prod.mk.inj heq).1 Nat.toDigits_ne_nil
  -- A zero with more digits behind it is neither zero nor anything else.
  · rename_i heq
    obtain ⟨hds, -⟩ := Prod.mk.inj heq
    have hpos : 0 < n := by
      refine Nat.pos_of_ne_zero fun hzero => ?_
      rw [hzero] at hds
      exact absurd (congrArg List.length hds) (by simp)
    exact absurd (congrArg List.head? hds) (Text.head_toDigits hpos)
  · rename_i heq
    obtain ⟨rfl, rfl⟩ := Prod.mk.inj heq
    rfl

theorem number?_toDigits (n : Nat) {rest : List Char} (h : Stops rest) :
    number? (Nat.toDigits 10 n ++ rest) = some (numberOf false (Nat.toDigits 10 n), rest) := by
  have hwhole := whole?_toDigits n h
  obtain ⟨c, ds, hds⟩ := List.exists_cons_of_ne_nil (Nat.toDigits_ne_nil (n := n) (b := 10))
  have hc : c ≠ '-' := by
    rintro rfl
    exact absurd (Text.isDigit_toDigits (hds ▸ List.mem_cons_self ..)) (by decide)
  obtain ⟨hfraction, hexponent⟩ :
      fraction? rest = some ([], rest) ∧ exponent? rest = some ([], rest) := by
    cases h <;> exact ⟨rfl, rfl⟩
  rw [hds, List.cons_append] at hwhole ⊢
  unfold number?
  split
  rename_i negative cs heq
  split at heq
  · rename_i hcons
    exact absurd (List.cons.inj hcons).1 hc
  · obtain ⟨rfl, rfl⟩ := Prod.mk.inj heq
    simp only [hwhole, hfraction, hexponent, Option.bind_eq_bind, Option.bind_some]
    rfl

theorem number?_minus_toDigits (n : Nat) {rest : List Char} (h : Stops rest) :
    number? ('-' :: (Nat.toDigits 10 n ++ rest)) =
      some (numberOf true (Nat.toDigits 10 n), rest) := by
  obtain ⟨hfraction, hexponent⟩ :
      fraction? rest = some ([], rest) ∧ exponent? rest = some ([], rest) := by
    cases h <;> exact ⟨rfl, rfl⟩
  simp only [number?, whole?_toDigits n h, hfraction, hexponent, Option.bind_eq_bind,
    Option.bind_some]
  rfl

/-- The numbers that are written without a loss. -/
def IsWord (n : Int) : Prop := Int64.minValue.toInt ≤ n ∧ n < UInt64.size

theorem number?_int {n : Int} (hn : IsWord n) {rest : List Char} (h : Stops rest) :
    number? (chars (.int n) ++ rest) = some (.int n, rest) := by
  obtain ⟨hmin, hmax⟩ := hn
  unfold chars
  by_cases hneg : n < 0
  · rw [if_pos hneg, List.cons_append, number?_minus_toDigits _ h, numberOf,
      Text.digits?_toDigits, Option.getD_some, if_pos rfl, if_pos (by omega)]
    congr 3
    omega
  · rw [if_neg hneg, number?_toDigits _ h, numberOf, Text.digits?_toDigits, Option.getD_some,
      if_neg Bool.false_ne_true, if_pos (by omega)]
    congr 3
    omega

/-- A value that begins with no other sign is a number. -/
theorem value?_of_number {c : Char} (hc : c.isDigit = true ∨ c = '-') (fuel : Nat)
    (cs : List Char) : value? (fuel + 1) (c :: cs) = number? (c :: cs) := by
  have hspace : skipSpace (c :: cs) = c :: cs := by
    refine List.dropWhile_cons_of_neg fun hspace => ?_
    simp only [isSpace, Bool.or_eq_true, decide_eq_true_eq] at hspace
    rcases hspace with ((rfl | rfl) | rfl) | rfl <;> exact absurd hc (by decide)
  rw [value?, hspace]
  split
  case h_7 => rfl
  all_goals
    rename_i heq
    obtain ⟨rfl, -⟩ := List.cons.inj heq
    exact absurd hc (by decide)

/-! Values -/

/-- Values whose numbers are all whole and fit 64 bits. -/
inductive IsPrintable : Json → Prop
  | null : IsPrintable .null
  | bool (b : Bool) : IsPrintable (.bool b)
  | int {n : Int} (h : IsWord n) : IsPrintable (.int n)
  | str (s : String) : IsPrintable (.str s)
  | arr {items : List Json} (h : ∀ v ∈ items, IsPrintable v) : IsPrintable (.arr items)
  | obj {es : List (String × Json)} (h : ∀ e ∈ es, IsPrintable e.2) : IsPrintable (.obj es)

/-- The value is read from the start of every text that goes on after its own. -/
structure ReadsBack (j : Json) : Prop where
  starts : ∃ c cs, j.chars = c :: cs ∧ isSpace c = false ∧ c ≠ ']'
  value : ∀ fuel rest, 2 * j.chars.length ≤ fuel + 1 → Stops rest →
    value? fuel (j.chars ++ rest) = some (j, rest)

theorem one_le_fuel {n fuel : Nat} {c : Char} {cs : List Char}
    (h : 2 * (c :: cs).length ≤ fuel + n) (hn : n ≤ 1) : ∃ m, fuel = m + 1 := by
  rw [List.length_cons] at h
  exact ⟨fuel - 1, by omega⟩

theorem readsBack_null : ReadsBack .null where
  starts := ⟨_, _, rfl, by decide, by decide⟩
  value fuel rest hfuel _ := by
    obtain ⟨fuel, rfl⟩ := one_le_fuel hfuel (Nat.le_refl 1)
    rfl

theorem readsBack_bool (b : Bool) : ReadsBack (.bool b) where
  starts := by cases b <;> exact ⟨_, _, rfl, by decide, by decide⟩
  value fuel rest hfuel _ := by
    cases b <;>
    · obtain ⟨fuel, rfl⟩ := one_le_fuel hfuel (Nat.le_refl 1)
      rfl

theorem starts_int (n : Int) :
    ∃ c cs, chars (.int n) = c :: cs ∧ (c.isDigit = true ∨ c = '-') := by
  unfold chars
  split
  · exact ⟨_, _, rfl, .inr rfl⟩
  · have hne : Nat.toDigits 10 n.natAbs ≠ [] := Nat.toDigits_ne_nil
    obtain ⟨c, ds, hds⟩ := List.exists_cons_of_ne_nil hne
    exact ⟨c, ds, hds, .inl (Text.isDigit_toDigits (hds ▸ List.mem_cons_self ..))⟩

theorem readsBack_int {n : Int} (h : IsWord n) : ReadsBack (.int n) := by
  obtain ⟨c, cs, hchars, hc⟩ := starts_int n
  refine ⟨⟨c, cs, hchars, ?_, ?_⟩, fun fuel rest hfuel hrest => ?_⟩
  · refine Bool.eq_false_iff.mpr fun hspace => ?_
    simp only [isSpace, Bool.or_eq_true, decide_eq_true_eq] at hspace
    rcases hspace with ((rfl | rfl) | rfl) | rfl <;> exact absurd hc (by decide)
  · rintro rfl
    exact absurd hc (by decide)
  · have hnumber := number?_int h hrest
    rw [hchars] at hfuel hnumber ⊢
    obtain ⟨fuel, rfl⟩ := one_le_fuel hfuel (Nat.le_refl 1)
    rw [List.cons_append] at hnumber ⊢
    rw [value?_of_number hc, hnumber]

theorem readsBack_str (s : String) : ReadsBack (.str s) where
  starts := ⟨_, _, rfl, by decide, by decide⟩
  value fuel rest hfuel _ := by
    obtain ⟨fuel, rfl⟩ := one_le_fuel hfuel (Nat.le_refl 1)
    obtain ⟨cs, hquote, hread⟩ := stringRest?_quote s rest
    rw [chars, hquote]
    change (stringRest? (cs.length + 1) [] cs).map _ = _
    rw [hread]
    rfl

theorem skipSpace_chars {j : Json} (h : ReadsBack j) (rest : List Char) :
    skipSpace (j.chars ++ rest) = j.chars ++ rest := by
  obtain ⟨c, cs, hchars, hspace, -⟩ := h.starts
  rw [hchars, List.cons_append]
  exact List.dropWhile_cons_of_neg (Bool.eq_false_iff.mp hspace)

theorem ReadsBack.length_pos {j : Json} (h : ReadsBack j) : 1 ≤ j.chars.length := by
  obtain ⟨c, cs, hchars, -⟩ := h.starts
  rw [hchars, List.length_cons]
  omega

theorem items?_chars {v : Json} {items : List Json} (h : ∀ w ∈ v :: items, ReadsBack w)
    {fuel : Nat} (hfuel : 2 * (itemsChars (v :: items)).length ≤ fuel + 2) (rest : List Char) :
    items? fuel (itemsChars (v :: items) ++ rest) = some (v :: items, rest) := by
  obtain ⟨hv, hitems⟩ := List.forall_mem_cons.mp h
  have hpos := hv.length_pos
  induction items generalizing v fuel with
  | nil =>
    rw [itemsChars, List.length_append, List.length_singleton] at hfuel
    rw [itemsChars, List.append_assoc, List.singleton_append]
    obtain ⟨fuel, rfl⟩ : ∃ m, fuel = m + 1 := ⟨fuel - 1, by omega⟩
    rw [items?, hv.value fuel _ (by omega) (.bracket rest)]
    rfl
  | cons w items ih =>
    rw [itemsChars, List.length_append, List.length_cons] at hfuel
    rw [itemsChars, List.append_assoc, List.cons_append]
    obtain ⟨hw, hitems'⟩ := List.forall_mem_cons.mp hitems
    obtain ⟨fuel, rfl⟩ : ∃ m, fuel = m + 1 := ⟨fuel - 1, by omega⟩
    have hrest : items? fuel (itemsChars (w :: items) ++ rest) = some (w :: items, rest) :=
      ih hitems (by omega) hw hitems' hw.length_pos
    rw [items?, hv.value fuel _ (by omega) (.comma _), Option.bind_eq_bind, Option.bind_some]
    change (items? fuel (itemsChars (w :: items) ++ rest)).bind _ = _
    rw [hrest]
    rfl

theorem value?_items {fuel : Nat} {c : Char} {cs cs' : List Char} (hc : c ≠ ']')
    (h : skipSpace cs = c :: cs') : value? (fuel + 1) ('[' :: cs) =
      (items? fuel (c :: cs')).map fun read => (.arr read.1, read.2) := by
  have hopen : skipSpace ('[' :: cs) = '[' :: cs := rfl
  rw [value?, hopen]
  split
  -- A text that opens with a bracket is none of the other values.
  all_goals first
    | rename_i heq
      exact absurd (List.cons.inj heq).1 (by decide)
    | skip
  · rename_i heq
    obtain ⟨-, rfl⟩ := List.cons.inj heq
    rw [h]
    split
    · rename_i heq'
      exact absurd (List.cons.inj heq').1 hc
    · rfl
  · rename_i hbracket _ _ _ _
    exact (hbracket cs rfl).elim

theorem readsBack_arr {items : List Json} (h : ∀ v ∈ items, ReadsBack v) :
    ReadsBack (.arr items) where
  starts := ⟨_, _, rfl, by decide, by decide⟩
  value fuel rest hfuel _ := by
    obtain ⟨fuel, rfl⟩ := one_le_fuel hfuel (Nat.le_refl 1)
    rw [chars, List.length_cons] at hfuel
    cases items with
    | nil => rfl
    | cons v items =>
      have hread : items? fuel (itemsChars (v :: items) ++ rest) = some (v :: items, rest) :=
        items?_chars h (by omega) rest
      have hv := h v (List.mem_cons_self ..)
      have hspace : skipSpace (itemsChars (v :: items) ++ rest) =
          itemsChars (v :: items) ++ rest := by
        cases items <;> rw [itemsChars, List.append_assoc, skipSpace_chars hv]
      -- What follows the opening bracket is an item, not the closing bracket.
      obtain ⟨c, cs, hchars, hc⟩ : ∃ c cs, itemsChars (v :: items) ++ rest = c :: cs ∧ c ≠ ']' := by
        obtain ⟨c, cs, hchars, -, hc⟩ := hv.starts
        cases items <;>
        · rw [itemsChars, hchars, List.append_assoc, List.cons_append]
          exact ⟨c, _, rfl, hc⟩
      rw [chars, List.cons_append, value?_items hc (hspace.trans hchars), ← hchars, hread]
      rfl

theorem entries?_last (key : String) {v : Json} (hv : ReadsBack v) {fuel : Nat}
    (hfuel : 2 * v.chars.length ≤ fuel + 1) (rest : List Char) :
    entries? (fuel + 1) (quote key ++ ':' :: (v.chars ++ '\x7d' :: rest)) =
      some ([(key, v)], rest) := by
  obtain ⟨cs, hquote, hkey⟩ := stringRest?_quote key (':' :: (v.chars ++ '\x7d' :: rest))
  rw [hquote]
  change (stringRest? (cs.length + 1) [] cs).bind _ = _
  rw [hkey, Option.bind_some]
  change (value? fuel (v.chars ++ '\x7d' :: rest)).bind _ = _
  rw [hv.value fuel _ hfuel (.brace rest)]
  rfl

theorem entries?_next (key : String) {v : Json} (hv : ReadsBack v) {fuel : Nat}
    (hfuel : 2 * v.chars.length ≤ fuel + 1) (rest : List Char) :
    entries? (fuel + 1) (quote key ++ ':' :: (v.chars ++ ',' :: rest)) =
      (entries? fuel rest).map fun read => ((key, v) :: read.1, read.2) := by
  obtain ⟨cs, hquote, hkey⟩ := stringRest?_quote key (':' :: (v.chars ++ ',' :: rest))
  rw [hquote]
  change (stringRest? (cs.length + 1) [] cs).bind _ = _
  rw [hkey, Option.bind_some]
  change (value? fuel (v.chars ++ ',' :: rest)).bind _ = _
  rw [hv.value fuel _ hfuel (.comma rest), Option.bind_some]
  change (entries? fuel rest).bind _ = _
  cases entries? fuel rest <;> rfl

theorem entries?_chars {e : String × Json} {es : List (String × Json)}
    (h : ∀ f ∈ e :: es, ReadsBack f.2) {fuel : Nat}
    (hfuel : 2 * (entriesChars (e :: es)).length ≤ fuel + 2) (rest : List Char) :
    entries? fuel (entriesChars (e :: es) ++ rest) = some (e :: es, rest) := by
  obtain ⟨hv, hes⟩ := List.forall_mem_cons.mp h
  have hpos := hv.length_pos
  induction es generalizing e fuel with
  | nil =>
    obtain ⟨key, v⟩ := e
    rw [entriesChars, List.length_append, List.length_cons, List.length_append,
      List.length_singleton] at hfuel
    rw [entriesChars, List.append_assoc, List.cons_append, List.append_assoc,
      List.singleton_append]
    dsimp only at hv hpos
    obtain ⟨fuel, rfl⟩ : ∃ m, fuel = m + 1 := ⟨fuel - 1, by omega⟩
    exact entries?_last key hv (by omega) rest
  | cons f es ih =>
    obtain ⟨key, v⟩ := e
    rw [entriesChars, List.length_append, List.length_cons, List.length_append,
      List.length_cons] at hfuel
    rw [entriesChars, List.append_assoc, List.cons_append, List.append_assoc, List.cons_append]
    dsimp only at hv hpos
    obtain ⟨hf, hes'⟩ := List.forall_mem_cons.mp hes
    obtain ⟨fuel, rfl⟩ : ∃ m, fuel = m + 1 := ⟨fuel - 1, by omega⟩
    have hrest : entries? fuel (entriesChars (f :: es) ++ rest) = some (f :: es, rest) :=
      ih hes (by omega) hf hes' hf.length_pos
    rw [entries?_next key hv (by omega), hrest]
    rfl

theorem readsBack_obj {es : List (String × Json)} (h : ∀ e ∈ es, ReadsBack e.2) :
    ReadsBack (.obj es) where
  starts := ⟨_, _, rfl, by decide, by decide⟩
  value fuel rest hfuel _ := by
    obtain ⟨fuel, rfl⟩ := one_le_fuel hfuel (Nat.le_refl 1)
    rw [chars, List.length_cons] at hfuel
    cases es with
    | nil => rfl
    | cons e es =>
      have hread : entries? fuel (entriesChars (e :: es) ++ rest) = some (e :: es, rest) :=
        entries?_chars h (by omega) rest
      obtain ⟨cs, hchars⟩ : ∃ cs, entriesChars (e :: es) ++ rest = '"' :: cs := by
        cases es <;>
        · rw [entriesChars, quote]
          exact ⟨_, rfl⟩
      rw [chars, List.cons_append, hchars]
      rw [hchars] at hread
      change (entries? fuel ('"' :: cs)).map _ = _
      rw [hread]
      rfl

theorem IsPrintable.readsBack {j : Json} (h : IsPrintable j) : ReadsBack j := by
  induction h with
  | null => exact readsBack_null
  | bool b => exact readsBack_bool b
  | int h => exact readsBack_int h
  | str s => exact readsBack_str s
  | arr _ ih => exact readsBack_arr ih
  | obj _ ih => exact readsBack_obj ih

theorem ofText?_text {j : Json} (h : IsPrintable j) : ofText? j.text = some j := by
  have hread := h.readsBack.value (2 * j.chars.length + 1) [] (by omega) .nil
  rw [List.append_nil] at hread
  rw [ofText?, text, String.toList_ofList, hread]
  rfl

end Json

end ResourcePki
