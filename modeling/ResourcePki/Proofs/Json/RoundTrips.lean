import ResourcePki.Proofs.Json.Printing
import ResourcePki.SortedMap
import ResourcePki.Text.Base64

/-! Values that are read from the JSON written for them: numbers, texts, bytes, names out of a
table, lists, optional entries of a record and maps. Of what a record is made of, one lemma each
says how its reader takes it back. -/

namespace ResourcePki

/-- A value comes back from its JSON, and the JSON from its text. -/
structure RoundTrips {α : Type} [JsonForm α] (a : α) : Prop where
  printable : (toJson a).IsPrintable
  reads : ofJson? (toJson a) = some a

namespace RoundTrips

variable {α : Type} [JsonForm α] {a : α}

theorem ofText? (h : RoundTrips a) : (Json.ofText? (toJson a).text).bind ofJson? = some a := by
  rw [Json.ofText?_text h.printable, Option.bind_some, h.reads]

theorem required (h : RoundTrips a) : Json.required (some (toJson a)) = some a := h.reads

theorem orElse (h : RoundTrips a) (default : α) :
    Json.orElse (some (toJson a)) default = some a := h.reads

end RoundTrips

/-! Values without parts -/

theorem roundTrips_string (s : String) : RoundTrips s := ⟨.str s, rfl⟩

theorem roundTrips_bool (b : Bool) : RoundTrips b := ⟨.bool b, rfl⟩

theorem roundTrips_nat {n : Nat} (h : n < UInt64.size) : RoundTrips n where
  printable := by
    have hmin : Int64.minValue.toInt ≤ 0 := by decide
    exact .int ⟨by omega, by omega⟩
  reads := by
    change Json.natural? (.int n) = some n
    rw [Json.natural?, if_pos ⟨by omega, by omega⟩, Int.toNat_natCast]

namespace Json

/-- A name out of a table without repetitions stands for what it was looked up for. -/
theorem named?_nameOf {α : Type} [DecidableEq α] {names : List (String × α)}
    (hnames : (names.map (·.1)).Nodup) {a : α} (ha : a ∈ names.map (·.2)) :
    named? names (nameOf names a) = some a := by
  have hlookup : ∀ e ∈ names, names.lookup e.1 = some e.2 := by
    clear ha
    induction names with
    | nil => exact fun e he => (nomatch he)
    | cons d rest ih =>
      rw [List.map_cons, List.nodup_cons] at hnames
      intro e he
      rcases List.mem_cons.mp he with rfl | he
      · exact List.lookup_cons_self
      · have hne : (e.1 == d.1) = false := by
          refine beq_eq_false_iff_ne.mpr fun heq => hnames.1 ?_
          exact heq ▸ List.mem_map_of_mem he
        rw [List.lookup_cons, hne]
        exact ih hnames.2 e he
  obtain ⟨e, he, rfl⟩ := List.mem_map.mp ha
  cases hfind : names.find? fun f => f.2 = e.2 with
  | none => exact absurd (List.find?_eq_none.mp hfind e he) (by simp)
  | some f =>
    have hf : f.2 = e.2 := by simpa using List.find?_some hfind
    rw [nameOf, hfind, ← hf]
    exact hlookup f (List.mem_of_find?_eq_some hfind)

theorem naturalKey?_toString {n : Nat} (h : n < UInt64.size) :
    naturalKey? (toString n) = some n := by
  have hnumeral : (Text.numeral? 10 (Nat.toDigits 10 n)).filter (· < UInt64.size) = some n := by
    rw [Text.numeral?, if_neg (by simp), Text.digits?_toDigits,
      Option.filter_some, if_pos (decide_eq_true h)]
  have hall : (Nat.toDigits 10 n).all Char.isDigit = true :=
    List.all_eq_true.mpr fun c hc => Text.isDigit_toDigits hc
  rw [naturalKey?, Nat.toString_eq_ofList_toDigits, String.toList_ofList]
  split
  · rename_i hds
    have hpos : 0 < n := by
      refine Nat.pos_of_ne_zero fun hzero => ?_
      rw [hzero] at hds
      exact absurd (congrArg List.length hds) (by simp)
    exact absurd (congrArg List.head? hds) (Text.head_toDigits hpos)
  · rw [if_pos hall, hnumeral]

end Json

namespace Base64

theorem digitValue?_digit : ∀ n < 64, digitValue? (digit n) = some n := by decide

theorem digit_ne_padding : ∀ n < 64, digit n ≠ '=' := by decide

theorem ofNat_of_eq {n : Nat} {x : UInt8} (h : n = x.toNat) : UInt8.ofNat n = x := by
  rw [h, UInt8.ofNat_toNat]

theorem decode?_encode (b : Bytes) : decode? (encode b) = some b := by
  have hdigit : ∀ {n}, n < 64 → digitValue? (digit n) = some n := digitValue?_digit _
  have hpadding : ∀ {n}, n < 64 → digit n = '=' → False := digit_ne_padding _
  induction b using encode.induct with
  | case1 => rfl
  | case2 a =>
    have ha := a.toNat_lt
    have hn : a.toNat * 16 / 64 * 64 + a.toNat * 16 % 64 = a.toNat * 16 := by omega
    rw [encode, decode?.eq_2, hdigit (by omega), hdigit (by omega)]
    simp only [Option.bind_eq_bind, Option.bind_some, hn]
    rw [if_pos (by omega), ofNat_of_eq (x := a) (by omega)]
    rfl
  | case3 a b =>
    have ha := a.toNat_lt
    have hb := b.toNat_lt
    rw [encode]
    generalize hn : (a.toNat * 256 + b.toNat) * 4 = n
    have hdigits : (n / 4096 * 64 + n / 64 % 64) * 64 + n % 64 = n := by omega
    rw [decode?.eq_3 _ _ _ (hpadding (by omega)), hdigit (by omega), hdigit (by omega),
      hdigit (by omega)]
    simp only [Option.bind_eq_bind, Option.bind_some, hdigits]
    rw [if_pos (by omega), ofNat_of_eq (x := a) (by omega), ofNat_of_eq (x := b) (by omega)]
    rfl
  | case4 a b c rest ih =>
    have ha := a.toNat_lt
    have hb := b.toNat_lt
    have hc := c.toNat_lt
    rw [encode]
    generalize hn : (a.toNat * 256 + b.toNat) * 256 + c.toNat = n
    have hdigits : ((n / 262144 * 64 + n / 4096 % 64) * 64 + n / 64 % 64) * 64 + n % 64 = n := by
      omega
    -- None of the four is padding, so this is not the end of the text.
    rw [decode?.eq_4 _ _ _ _ _ (fun _ h _ => hpadding (by omega) h)
      (fun h _ => hpadding (by omega) h), hdigit (by omega), hdigit (by omega), hdigit (by omega),
      hdigit (by omega)]
    simp only [Option.bind_eq_bind, Option.bind_some, hdigits, ih]
    rw [ofNat_of_eq (x := a) (by omega), ofNat_of_eq (x := b) (by omega),
      ofNat_of_eq (x := c) (by omega)]
    rfl

end Base64

theorem roundTrips_bytes (b : Bytes) : RoundTrips b where
  printable := .str _
  reads := by
    change Base64.decode? (String.ofList (Base64.encode b)).toList = some b
    rw [String.toList_ofList, Base64.decode?_encode]

/-! Lists, optional entries and maps -/

theorem mapM_map_of_some {α β γ : Type} {f : α → Option β} {g : γ → α} {h : γ → β} {l : List γ}
    (hl : ∀ x ∈ l, f (g x) = some (h x)) : (l.map g).mapM f = some (l.map h) := by
  induction l with
  | nil => rfl
  | cons x l ih =>
    obtain ⟨hx, hl⟩ := List.forall_mem_cons.mp hl
    rw [List.map_cons, List.mapM_cons, hx, ih hl]
    rfl

/-- Entries that are in order make up the map that they are taken from. -/
theorem SortedMap.ofList_entries {κ α : Type} [Numbered κ] (m : SortedMap κ α) :
    SortedMap.ofList m.entries = m := by
  have hget : ∀ (l : List (κ × α)) (acc : SortedMap κ α),
      (l.Pairwise fun e f => Numbered.number e.1 < Numbered.number f.1) → ∀ k,
      (l.foldl (fun m e => m.insert e.1 e.2) acc).get? k =
        (SortedMap.lookup k l).or (acc.get? k) := by
    intro l
    induction l with
    | nil => exact fun _ _ _ => rfl
    | cons e rest ih =>
      intro acc hl k
      obtain ⟨hfirst, hrest⟩ := List.pairwise_cons.mp hl
      rw [List.foldl_cons, ih _ hrest, SortedMap.get?_insert, SortedMap.lookup]
      split
      · rename_i hk
        have hnone : SortedMap.lookup k rest = none := SortedMap.lookup_eq_none fun f hf heq => by
          have hlt := hfirst f hf
          omega
        rw [hnone]
        rfl
      · rfl
  refine SortedMap.ext fun k => (hget m.entries _ m.sorted k).trans ?_
  rw [SortedMap.get?_empty, Option.or_none]
  rfl

section

variable {α : Type} [JsonForm α]

theorem roundTrips_list {l : List α} (h : ∀ a ∈ l, RoundTrips a) : RoundTrips l where
  printable := by
    refine .arr fun v hv => ?_
    obtain ⟨a, ha, rfl⟩ := List.mem_map.mp hv
    exact (h a ha).printable
  reads := by
    change (l.map toJson).mapM ofJson? = some l
    rw [mapM_map_of_some (h := id) fun a ha => (h a ha).reads, List.map_id]

theorem printable_entry? {name : String} {v : Option α} (h : ∀ a ∈ v, RoundTrips a) :
    ∀ e ∈ Json.entry? name v, e.2.IsPrintable := by
  cases v with
  | none => exact fun e he => (nomatch he)
  | some a =>
    intro e he
    obtain rfl := List.mem_singleton.mp he
    exact (h a rfl).printable

theorem ofJson?_some {j : Json} (h : j ≠ .null) :
    (ofJson? j : Option (Option α)) = (ofJson? j).map some := by
  cases j with
  | null => exact absurd rfl h
  | _ => rfl

/-- An optional field comes back, be it there or left out, unless its values are written as the
value that stands for none. -/
theorem orElse_map {v : Option α} (h : ∀ a ∈ v, RoundTrips a)
    (hnull : ∀ a : α, toJson a ≠ Json.null) : Json.orElse (v.map toJson) none = some v := by
  cases v with
  | none => rfl
  | some a =>
    rw [Option.map_some, Json.orElse]
    exact (ofJson?_some (hnull a)).trans (by rw [(h a rfl).reads]; rfl)

theorem mapM_entries {κ : Type} [Numbered κ] {m : SortedMap κ α} (key : κ → String)
    (key? : String → Option κ) (hkey : ∀ e ∈ m.entries, key? (key e.1) = some e.1)
    (h : ∀ e ∈ m.entries, RoundTrips e.2) :
    (m.entries.map fun e => (key e.1, toJson e.2)).mapM
      (fun e => do return (← key? e.1, ← ofJson? e.2)) = some m.entries := by
  rw [mapM_map_of_some (h := id), List.map_id]
  intro e he
  dsimp only
  rw [hkey e he, (h e he).reads]
  rfl

end

end ResourcePki
