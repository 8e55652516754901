import ObjectFlow.Wire

/-!
# What crosses the wire

A value crosses where the JSON it is written in is read back, at its declared
type, as a value equal to it.  What crosses is said of the value alone, and
whatever is read from the wire does.
-/

namespace ObjectFlow

open Base

/-! ### Decimals at a scale -/

namespace Decimal

/-- Whether a decimal is held at a scale as the same number, within the digits
given. -/
def fitsAt (d : Decimal) (scale digits : Nat) : Bool :=
  (d.rescale scale).any fun held =>
    held.equal d && decide ((held.units.natAbs : Int) ≤ min MAX_UNITS (10 ^ digits - 1))

theorem rescale_scale {d r : Decimal} {scale : Nat} (h : d.rescale scale = some r) :
    r.scale = scale := by
  unfold rescale at h
  split at h
  · rename_i heq
    obtain rfl := Option.some.inj h
    exact heq.symm
  · split at h
    · simp only [bind, Option.bind_eq_some_iff] at h
      obtain ⟨_, _, _, _, hnew⟩ := h
      exact (new_eq_some.mp hnew).2
    · simp only [bind, Option.bind_eq_some_iff] at h
      obtain ⟨_, _, _, _, hnew⟩ := h
      exact (new_eq_some.mp hnew).2

theorem divHalfEven_mul {n b : Int} (hb : b ≠ 0) (h : fits128 n = some n) :
    divHalfEven (n * b) b = some n := by
  unfold divHalfEven
  rw [if_neg hb, Int.mul_tdiv_cancel _ hb, h]
  simp

/-- A decimal is held at the scale of one equal to it, as that one. -/
theorem rescale_of_equal {r d : Decimal} (h : r.equal d = true) : d.rescale r.scale = some r := by
  have hnumbers := (equal_iff r d).mp h
  unfold rescale
  by_cases heq : r.scale = d.scale
  · rw [if_pos heq]
    rw [heq] at hnumbers
    have hunits : r.units = d.units := by
      have hpos : (10 : Int) ^ d.scale ≠ 0 := by positivity
      exact mul_right_cancel₀ hpos hnumbers
    cases r
    cases d
    simp_all
  · rw [if_neg heq]
    by_cases hlt : d.scale < r.scale
    · have hsplit : (10 : Int) ^ r.scale = 10 ^ (r.scale - d.scale) * 10 ^ d.scale := by
        rw [← pow_add, Nat.sub_add_cancel hlt.le]
      have hunits : d.units * 10 ^ (r.scale - d.scale) = r.units := by
        have hpos : (10 : Int) ^ d.scale ≠ 0 := by positivity
        apply mul_right_cancel₀ hpos
        rw [hnumbers, hsplit, mul_assoc]
      have hfits : fits128 r.units = some r.units :=
        fits128_eq_some.mpr ⟨rfl, r.bounded⟩
      have hpow : pow10 (r.scale - d.scale) = some (10 ^ (r.scale - d.scale)) :=
        pow10_of_le (le_trans (Nat.sub_le ..) r.places)
      rw [if_pos hlt, hpow]
      simp only [bind, Option.bind_some, hunits, hfits]
      exact new_eq_some.mpr ⟨rfl, rfl⟩
    · have hsplit : (10 : Int) ^ d.scale = 10 ^ (d.scale - r.scale) * 10 ^ r.scale := by
        rw [← pow_add, Nat.sub_add_cancel (by omega)]
      have hunits : r.units * 10 ^ (d.scale - r.scale) = d.units := by
        have hpos : (10 : Int) ^ r.scale ≠ 0 := by positivity
        apply mul_right_cancel₀ hpos
        rw [← hnumbers, hsplit, mul_assoc]
      have hfits : fits128 r.units = some r.units :=
        fits128_eq_some.mpr ⟨rfl, r.bounded⟩
      have hpow : pow10 (d.scale - r.scale) = some (10 ^ (d.scale - r.scale)) :=
        pow10_of_le (le_trans (Nat.sub_le ..) d.places)
      have hpos : (10 : Int) ^ (d.scale - r.scale) ≠ 0 := by positivity
      rw [if_neg hlt, hpow, ← hunits]
      simp only [bind, Option.bind_some, divHalfEven_mul hpos hfits]
      exact new_eq_some.mpr ⟨rfl, rfl⟩

theorem fitsAt_iff (d : Decimal) (scale digits : Nat) : d.fitsAt scale digits = true ↔
    ∃ held, d.rescale scale = some held ∧ held.equal d = true ∧
      (held.units.natAbs : Int) ≤ min MAX_UNITS (10 ^ digits - 1) := by
  simp [fitsAt, Option.any_eq_true]

/-- A number that is held at a scale is held there at whatever places it has. -/
theorem fitsAt_of_equal {u d : Decimal} {scale digits : Nat} (h : u.equal d = true)
    (hu : u.fitsAt scale digits = true) : d.fitsAt scale digits = true := by
  obtain ⟨held, hheld, hequal, hdigits⟩ := (fitsAt_iff u scale digits).mp hu
  have hboth := equal_trans hequal h
  have hrescale := rescale_of_equal hboth
  rw [rescale_scale hheld] at hrescale
  exact (fitsAt_iff d scale digits).mpr ⟨held, hrescale, hboth, hdigits⟩

/-- The least of 128 bits is no number of 18 digits at any scale. -/
theorem units_of_fitsAt {d : Decimal} {scale digits : Nat} (h : d.fitsAt scale digits = true) :
    -i128Max ≤ d.units := by
  obtain ⟨held, _, hequal, hdigits⟩ := (fitsAt_iff d scale digits).mp h
  have hnumbers := (equal_iff held d).mp hequal
  have hlow := d.bounded.1
  by_contra hsmall
  have hleast : d.units = -2 ^ 127 := by
    have hmin : i128Min = -2 ^ 127 := by decide
    have hmax : -i128Max = -2 ^ 127 + 1 := by decide
    omega
  have hunits : (held.units.natAbs : Int) ≤ MAX_UNITS := le_trans hdigits (min_le_left _ _)
  have habs : held.units.natAbs * 10 ^ d.scale = 2 ^ 127 * 10 ^ held.scale := by
    have h' := congrArg Int.natAbs hnumbers
    rw [Int.natAbs_mul, Int.natAbs_mul, Int.natAbs_pow, Int.natAbs_pow, hleast] at h'
    exact h'
  by_cases hscale : d.scale ≤ held.scale
  · -- at as many places or more it has at least as many units
    have hsplit : 10 ^ held.scale = 10 ^ (held.scale - d.scale) * 10 ^ d.scale := by
      rw [← pow_add, Nat.sub_add_cancel hscale]
    rw [hsplit, ← mul_assoc] at habs
    have hcancel := Nat.eq_of_mul_eq_mul_right (by positivity) habs
    have hpos : 1 ≤ 10 ^ (held.scale - d.scale) := Nat.one_le_pow _ _ (by decide)
    have hmax : MAX_UNITS < 2 ^ 127 := by decide
    have hmany : 2 ^ 127 ≤ held.units.natAbs := by
      rw [hcancel]
      exact Nat.le_mul_of_pos_right _ (by positivity)
    omega
  · -- at fewer it is no whole number of units
    have hsplit : 10 ^ d.scale = 10 ^ (d.scale - held.scale) * 10 ^ held.scale := by
      rw [← pow_add, Nat.sub_add_cancel (by omega)]
    rw [hsplit, ← mul_assoc] at habs
    have hcancel := Nat.eq_of_mul_eq_mul_right (by positivity) habs
    have hfive : 5 ∣ 2 ^ 127 := by
      rw [← hcancel]
      apply Dvd.dvd.mul_left
      exact dvd_pow (by decide) (by omega)
    exact absurd hfive (by decide)

end Decimal

theorem heldAtScale_ok {d held : Decimal} {scale digits : Nat} :
    heldAtScale d scale digits = .ok held ↔ d.rescale scale = some held ∧ held.equal d = true ∧
      (held.units.natAbs : Int) ≤ min MAX_UNITS (10 ^ digits - 1) := by
  unfold heldAtScale
  constructor
  · intro h
    split at h
    · cases h
    · rename_i r hrescale
      split at h
      · cases h
      · rename_i hequal
        split at h
        · rename_i hdigits
          obtain rfl := Except.ok.inj h
          exact ⟨hrescale, by simpa using hequal, hdigits⟩
        · cases h
  · rintro ⟨hrescale, hequal, hdigits⟩
    rw [hrescale]
    dsimp only
    rw [hequal, Bool.not_true, if_neg Bool.false_ne_true, if_pos hdigits]

/-- A number held at a scale is what it was, and is held there again. -/
theorem fitsAt_of_heldAtScale {d held : Decimal} {scale digits : Nat}
    (h : heldAtScale d scale digits = .ok held) : held.fitsAt scale digits = true := by
  obtain ⟨hrescale, _, hdigits⟩ := heldAtScale_ok.mp h
  have hself := Decimal.rescale_of_equal (Decimal.equal_self held)
  rw [Decimal.rescale_scale hrescale] at hself
  exact (Decimal.fitsAt_iff held scale digits).mpr ⟨held, hself, Decimal.equal_self held, hdigits⟩

theorem heldAtScale_of_fitsAt {d : Decimal} {scale digits : Nat}
    (h : d.fitsAt scale digits = true) :
    ∃ held, heldAtScale d scale digits = .ok held ∧ held.equal d = true := by
  obtain ⟨held, hrescale, hequal, hdigits⟩ := (Decimal.fitsAt_iff d scale digits).mp h
  exact ⟨held, heldAtScale_ok.mpr ⟨hrescale, hequal, hdigits⟩, hequal⟩

section Crosses

variable (lib : Library)

/-- Whether a text crosses at a text's type: an identity names one actor as it
reads, and none holds U+0000 or too many bytes. -/
def textCrosses (type s : String) : Bool :=
  !(type = "identity" && (identityFault s lib).isSome) && !s.toList.contains '\x00' &&
    s.utf8ByteSize ≤ TEXT_BYTES

/-- Whether a member crosses: it is one of its enumeration's, and is not read as
another, qualified. -/
def memberCrosses (enumeration : String) (members : List String) (member : String) : Bool :=
  members.contains member && (stripBeginning (enumeration ++ ".") member).getD member = member

/-- Whether a value crosses at a built-in type or an enumeration, by its name. -/
def namedCrosses (type : String) (v : Value) : Bool :=
  match Table.get? lib.enumerations type, v with
  | some members, .member enumeration member =>
      enumeration = type && memberCrosses type members member
  | some _, _ => false
  | none, .bool _ => type = "bool"
  | none, .int n => type ∈ ["int", "counter"] && (fits64 n).isSome
  | none, .timestamp t => type = "timestamp" && inCalendar (t / 86400)
  | none, .date d => type = "date" && inCalendar d
  | none, .duration s => type = "duration" && (fits64 s).isSome
  | none, .file hash size mediaType => type = "file" && isFileHash hash && 0 ≤ size &&
      size ≤ SAFE_INT && isMediaType mediaType && asciiLower mediaType = mediaType
  | none, .text s => type ∈ ["string", "text", "identity", "actor_kind"] && textCrosses lib type s
  | none, _ => false

def scalarCrosses (s : Scalar) (v : Value) : Bool :=
  match s, v with
  | .decimal precision scale, .decimal d => d.fitsAt scale precision
  | .money currency, .money c amount => c = currency && (minorUnit currency).any (amount.fitsAt · 18)
  | .named type, v => namedCrosses lib (scalarName type) v
  | _, _ => false

/-- A value type's fields as a value of it keeps them. -/
def ValueType.keys (vt : ValueType) : List String :=
  Table.keys (vt.fields.foldl (fun t f => Table.set t f.1 ()) [])

mutual

/-- **Whether a value crosses the wire** at a declared type. -/
def Value.crosses : Value → Declared → Bool → Bool
  | .absent, _, _ => true
  | .set items, declared, true => itemsCross items declared []
  | _, _, true => false
  | .object _, .reference _, false => true
  | .record type fields, .value name, false =>
      match Table.get? lib.values name with
      | none => false
      | some vt => type = name && Table.keys fields = vt.keys && fieldsCross fields vt.fields &&
          vt.fields.all fun f => f.2.optional || (Table.get? fields f.1).any fun v => !v.isAbsent
  | v, .scalar s, false => scalarCrosses lib s v
  | _, _, false => false

/-- Whether a set's elements cross, each once and none absent. -/
def itemsCross : List Value → Declared → List Value → Bool
  | [], _, _ => true
  | v :: rest, declared, earlier => !v.isAbsent && v.crosses declared false &&
      !(earlier.any fun u => u.same v) && itemsCross rest declared (earlier ++ [v])

/-- Whether each field crosses at its own type. -/
def fieldsCross : List (String × Value) → List (String × Attribute) → Bool
  | [], _ => true
  | (k, v) :: rest, fields =>
      (match named? fields k with
      | none => false
      | some a => v.crosses a.declared a.many) && fieldsCross rest fields

end

end Crosses

/-! ### Lowered media types -/

/-- A lowered character is itself, or one letter for another. -/
theorem toLower_cases (c : Char) : c.toLower = c ∨
    (c.isAlphanum = true ∧ c ≠ '/' ∧ c.toLower.isAlphanum = true ∧ c.toLower ≠ '/' ∧
      c.toLower.toLower = c.toLower) := by
  by_cases hupper : 65 ≤ c.toNat ∧ c.toNat ≤ 90
  · have hletters : ∀ n < 91, 65 ≤ n → (Char.ofNat n).isAlphanum = true ∧ Char.ofNat n ≠ '/' ∧
        (Char.ofNat n).toLower.isAlphanum = true ∧ (Char.ofNat n).toLower ≠ '/' ∧
        (Char.ofNat n).toLower.toLower = (Char.ofNat n).toLower := by
      decide
    have h := hletters c.toNat (by omega) hupper.1
    rw [Char.ofNat_toNat] at h
    exact .inr h
  · refine .inl (dif_neg ?_)
    rintro ⟨hlow, hhigh⟩
    exact hupper ⟨hlow, hhigh⟩

theorem asciiLower_toList (s : String) : (asciiLower s).toList = s.toList.map Char.toLower := by
  rw [asciiLower, String.toList_ofList]

theorem asciiLower_idem (s : String) : asciiLower (asciiLower s) = asciiLower s := by
  have hchar : ∀ c : Char, c.toLower.toLower = c.toLower := by
    intro c
    rcases toLower_cases c with h | ⟨_, _, _, _, h⟩
    · rw [h, h]
    · exact h
  rw [asciiLower, asciiLower_toList, List.map_map]
  apply congrArg String.ofList
  apply List.map_congr_left
  intro c _
  exact hchar c

theorem isToken_asciiLower {t : String} (h : isToken t = true) : isToken (asciiLower t) = true := by
  unfold isToken at h ⊢
  rw [Bool.and_eq_true, Bool.not_eq_true', String.isEmpty_eq_false_iff] at h ⊢
  obtain ⟨hne, hall⟩ := h
  constructor
  · intro hnil
    have hlist := asciiLower_toList t
    rw [hnil] at hlist
    have hempty : t.toList = [] := List.map_eq_nil_iff.mp hlist.symm
    exact hne (String.toList_eq_nil_iff.mp hempty)
  · rw [asciiLower_toList, List.all_map]
    apply List.all_eq_true.mpr
    intro c hc
    have h := List.all_eq_true.mp hall c hc
    dsimp only [Function.comp_apply]
    rcases toLower_cases c with heq | ⟨_, _, hlower, _⟩
    · rw [heq]
      exact h
    · rw [hlower, Bool.true_or]

theorem splitOnce_asciiLower (s : String) : splitOnce '/' (asciiLower s) =
    (splitOnce '/' s).map fun parts => (asciiLower parts.1, asciiLower parts.2) := by
  have hchar : ∀ c : Char, decide (c.toLower ≠ '/') = decide (c ≠ '/') := by
    intro c
    rcases toLower_cases c with h | ⟨_, hne, _, hne', _⟩
    · rw [h]
    · simp [hne, hne']
  have hcomp : (fun c : Char => decide (c ≠ '/')) ∘ Char.toLower = fun c => decide (c ≠ '/') :=
    funext hchar
  unfold splitOnce
  rw [asciiLower_toList, List.dropWhile_map, List.takeWhile_map, hcomp]
  cases s.toList.dropWhile fun c => decide (c ≠ '/') with
  | nil => rfl
  | cons c rest =>
    simp [asciiLower]

theorem isMediaType_asciiLower {s : String} (h : isMediaType s = true) :
    isMediaType (asciiLower s) = true := by
  unfold isMediaType at h ⊢
  rw [splitOnce_asciiLower]
  obtain ⟨parts, hparts, htokens⟩ := (Option.any_eq_true _ _).mp h
  rw [Bool.and_eq_true] at htokens
  rw [hparts, Option.map_some, Option.any_some, isToken_asciiLower htokens.1,
    isToken_asciiLower htokens.2]
  rfl

/-! ### What is written is read -/

/-- What is read of a value as written, and is it. -/
def Reread (read : Except InputReason Value) (v : Value) : Prop := ∃ u, read = .ok u ∧ u.same v = true

theorem reread_self {read : Except InputReason Value} {v : Value} (h : read = .ok v) :
    Reread read v := ⟨v, h, Value.same_self v⟩

theorem wholeNumber_toString {n : Int} (h : (n.natAbs : Int) ≤ SAFE_INT) :
    wholeNumber (toString n) = some n := by
  have hsafe : SAFE_INT = 9007199254740991 := rfl
  have hvalue := digits_toDigits n.natAbs
  obtain ⟨c, rest, hlist, hminus, _⟩ := toDigits_cons n.natAbs
  unfold wholeNumber
  rw [toString_toList]
  by_cases hneg : n < 0
  · have habs : -((n.natAbs : Nat) : Int) = n := by omega
    rw [if_pos hneg, List.singleton_append]
    split
    · rename_i digits heq
      rw [← (List.cons.inj heq).2, hvalue, Option.bind_some, if_pos (by omega), habs]
    · rename_i hno
      exact absurd rfl (hno _)
  · have habs : ((n.natAbs : Nat) : Int) = n := by omega
    rw [if_neg hneg, List.nil_append]
    rw [hlist] at hvalue ⊢
    split
    · rename_i heq
      exact absurd (List.cons.inj heq).1 hminus
    · rw [hvalue, Option.bind_some, if_pos (by omega), habs]

theorem decodeInt_encode {n : Int} (h : fits64 n = some n) :
    decodeInt (Value.int n).encode = .ok (.int n) := by
  unfold Value.encode
  by_cases hsafe : (n.natAbs : Int) ≤ SAFE_INT
  · rw [if_pos hsafe]
    unfold decodeInt
    dsimp only
    rw [wholeNumber_toString hsafe]
    dsimp only
    rw [h, Option.isSome_some, if_pos rfl]
  · rw [if_neg hsafe]
    unfold decodeInt
    dsimp only
    rw [parseInt_toString h]

theorem decodeDecimal_encode {d : Decimal} {precision scale : Nat}
    (h : d.fitsAt scale precision = true) :
    Reread (decodeDecimal precision scale (Value.decimal d).encode) (.decimal d) := by
  obtain ⟨held, hheld, hequal⟩ := heldAtScale_of_fitsAt h
  have hparse := Decimal.parse_display (Decimal.units_of_fitsAt h)
  refine ⟨.decimal held, ?_, by rw [Value.same, hequal]⟩
  unfold Value.encode decodeDecimal
  dsimp only
  rw [Decimal.trim_display, if_neg (by simp), hparse]
  dsimp only
  rw [hheld]
  rfl

theorem decodeMoney_encode {currency : String} {amount : Decimal} {minor : Nat}
    (hminor : minorUnit currency = some minor) (h : amount.fitsAt minor 18 = true) :
    Reread (decodeMoney currency (Value.money currency amount).encode) (.money currency amount) := by
  obtain ⟨held, hheld, hequal⟩ := heldAtScale_of_fitsAt h
  have hparse := Decimal.parse_display (Decimal.units_of_fitsAt h)
  have hspace : ∀ c ∈ currency.toList, c ≠ ' ' := by
    have hknown : ∀ known ∈ ["USD", "EUR", "GBP", "SGD", "AUD", "CAD", "CHF", "CNY", "HKD", "NZD",
        "MYR", "INR", "THB", "JPY", "KRW", "BHD", "KWD", "OMR", "JOD", "TND"],
        ∀ c ∈ known.toList, c ≠ ' ' := by
      intro known hmem c hc
      have hall : ["USD", "EUR", "GBP", "SGD", "AUD", "CAD", "CHF", "CNY", "HKD", "NZD",
          "MYR", "INR", "THB", "JPY", "KRW", "BHD", "KWD", "OMR", "JOD", "TND"].all
            (fun known => known.toList.all fun c => c != ' ') = true := by
        decide +kernel
      have hchars := List.all_eq_true.mp (List.all_eq_true.mp hall known hmem) c hc
      simpa using hchars
    apply hknown
    unfold minorUnit at hminor
    split at hminor
    · rename_i hmem
      exact List.mem_append_left ["JPY", "KRW", "BHD", "KWD", "OMR", "JOD", "TND"] hmem
    · split at hminor
      · rename_i hmem
        exact List.mem_append_right ["USD", "EUR", "GBP", "SGD", "AUD", "CAD", "CHF", "CNY", "HKD",
          "NZD", "MYR", "INR", "THB"] (List.mem_append_left ["BHD", "KWD", "OMR", "JOD", "TND"] hmem)
      · split at hminor
        · rename_i hmem
          exact List.mem_append_right ["USD", "EUR", "GBP", "SGD", "AUD", "CAD", "CHF", "CNY", "HKD",
            "NZD", "MYR", "INR", "THB", "JPY", "KRW"] hmem
        · cases hminor
  have hlist : (currency ++ " " ++ amount.display).toList =
      currency.toList ++ ' ' :: amount.display.toList := by
    simp [String.toList_append]
  have hsplit := splitOnce_eq hlist hspace
  rw [String.ofList_toList, String.ofList_toList] at hsplit
  refine ⟨.money currency held, ?_, by simp [Value.same, hequal]⟩
  unfold Value.encode decodeMoney Json.string?
  rw [hminor]
  dsimp only
  rw [hsplit]
  dsimp only
  rw [Decimal.trim_display, if_neg (by simp), hparse]
  dsimp only
  rw [if_neg (by simp), hheld]
  rfl

theorem fileOf_encode {hash mediaType : String} {size : Int} (hhash : isFileHash hash = true)
    (hlow : 0 ≤ size) (hhigh : size ≤ SAFE_INT) (hmedia : isMediaType mediaType = true)
    (hlower : asciiLower mediaType = mediaType) :
    fileOf (Value.file hash size mediaType).encode = .ok (.file hash size mediaType) := by
  have hsafe : (size.natAbs : Int) ≤ SAFE_INT := by omega
  have hfits : fits64 size = some size := by
    have hmax : SAFE_INT ≤ i64Max := by decide
    have hmin : i64Min ≤ 0 := by decide
    exact fits64_eq_some.mpr ⟨rfl, by omega, by omega⟩
  have hkeys : ∀ fields : List (String × Json), Table.keys fields = ["hash", "size", "media_type"] →
      (Table.keys fields).any (fun k => !(["hash", "size", "media_type"].contains k)) = false := by
    intro fields h
    rw [h]
    decide
  have hget : (Table.get? [("hash", Json.string hash), ("size", .number (toString size)),
      ("media_type", .string mediaType)] "size").bind Json.wholeNumber? = some size := by
    have hread : (wholeNumber (toString size)).bind fits64 = some size := by
      rw [wholeNumber_toString hsafe, Option.bind_some, hfits]
    exact hread
  have hsize : (some size).filter (fun n => decide (0 ≤ n ∧ n ≤ SAFE_INT)) = some size := by
    simp [hlow, hhigh]
  unfold Value.encode fileOf
  dsimp only
  rw [hkeys _ rfl, if_neg Bool.false_ne_true, hget, hsize]
  simp [Table.get?, Json.string?, hhash, hmedia, hlower]

section Scalars

variable (lib : Library)

theorem decodeText_ok {type s : String} (h : textCrosses lib type s = true) :
    decodeText lib type s = .ok (.text s) := by
  unfold textCrosses at h
  simp only [Bool.and_eq_true, Bool.not_eq_true', decide_eq_true_eq, Bool.and_eq_false_imp] at h
  obtain ⟨⟨hidentity, hzero⟩, hbytes⟩ := h
  unfold decodeText
  rw [if_neg, hzero, if_neg Bool.false_ne_true, if_neg (by omega)]
  rintro ⟨htype, hfault⟩
  have hnone := hidentity htype
  rw [hfault] at hnone
  cases hnone

theorem decodeMember_encode {enumeration member : String} {members : List String}
    (h : memberCrosses enumeration members member = true) :
    decodeMember enumeration members (Value.member enumeration member).encode =
      .ok (.member enumeration member) := by
  unfold memberCrosses at h
  rw [Bool.and_eq_true, decide_eq_true_eq] at h
  unfold Value.encode decodeMember Json.string?
  dsimp only
  rw [h.2, if_pos h.1]

theorem decodeNamed_encode {type : String} {v : Value} (h : namedCrosses lib type v = true) :
    Reread (decodeNamed lib type v.encode) v := by
  unfold namedCrosses at h
  unfold decodeNamed
  cases hmembers : Table.get? lib.enumerations type with
  | some members =>
    rw [hmembers] at h
    cases v <;> first | (exact absurd h Bool.false_ne_true) | skip
    rename_i enumeration member
    simp only [Bool.and_eq_true, decide_eq_true_eq] at h
    obtain ⟨rfl, hmember⟩ := h
    exact reread_self (decodeMember_encode hmember)
  | none =>
    rw [hmembers] at h
    dsimp only
    cases v <;> first | (exact absurd h Bool.false_ne_true) | skip
    all_goals simp only [Bool.and_eq_true, decide_eq_true_eq] at h
    case bool b =>
      subst h
      exact reread_self rfl
    case int n =>
      obtain ⟨htype, hfits⟩ := h
      obtain ⟨m, hm⟩ := Option.isSome_iff_exists.mp hfits
      obtain rfl := (fits64_eq_some.mp hm).1
      have hread : Reread (decodeInt (Value.int n).encode) (.int n) := reread_self (decodeInt_encode hm)
      simp only [List.mem_cons, List.not_mem_nil, or_false] at htype
      rcases htype with rfl | rfl <;> simpa using hread
    case timestamp t =>
      obtain ⟨rfl, hcalendar⟩ := h
      apply reread_self
      simp [decodeBy, Value.encode, Json.string?, parseTimestamp_timestampText hcalendar]
    case date d =>
      obtain ⟨rfl, hcalendar⟩ := h
      apply reread_self
      simp [decodeBy, Value.encode, Json.string?, parseDate_dateText hcalendar]
    case duration n =>
      obtain ⟨rfl, hfits⟩ := h
      obtain ⟨m, hm⟩ := Option.isSome_iff_exists.mp hfits
      obtain rfl := (fits64_eq_some.mp hm).1
      apply reread_self
      simp [decodeBy, Value.encode, Json.string?, parseDuration_durationText hm]
    case file hash size mediaType =>
      obtain ⟨⟨⟨⟨⟨rfl, hhash⟩, hlow⟩, hhigh⟩, hmedia⟩, hlower⟩ := h
      apply reread_self
      simpa using fileOf_encode hhash hlow hhigh hmedia hlower
    case text s =>
      obtain ⟨htype, htext⟩ := h
      have hread := decodeText_ok lib htext
      apply reread_self
      simp only [List.mem_cons, List.not_mem_nil, or_false] at htype
      rcases htype with rfl | rfl | rfl | rfl <;> simpa [Value.encode, Json.string?] using hread

/-- **A scalar that crosses is reread.** -/
theorem decodeScalar_encode {s : Scalar} {v : Value} (h : scalarCrosses lib s v = true) :
    Reread (decodeScalar lib s v.encode) v := by
  unfold scalarCrosses at h
  unfold decodeScalar
  split at h
  · exact decodeDecimal_encode h
  · simp only [Bool.and_eq_true, decide_eq_true_eq] at h
    obtain ⟨rfl, hminor⟩ := h
    obtain ⟨minor, hminor, hfits⟩ := (Option.any_eq_true _ _).mp hminor
    exact decodeMoney_encode hminor hfits
  · exact decodeNamed_encode lib h
  · cases h

/-- **A scalar equal to one that crosses crosses.** -/
theorem scalarCrosses_of_same {s : Scalar} {u v : Value} (h : u.same v = true)
    (hu : scalarCrosses lib s u = true) : scalarCrosses lib s v = true := by
  unfold scalarCrosses at hu
  split at hu
  · rename_i precision scale d
    cases v <;> simp only [Value.same, Bool.false_eq_true] at h
    exact Decimal.fitsAt_of_equal h hu
  · rename_i currency c amount
    cases v <;> simp only [Value.same, Bool.false_eq_true, Bool.and_eq_true, decide_eq_true_eq] at h
    rename_i c' amount'
    obtain ⟨rfl, hequal⟩ := h
    simp only [Bool.and_eq_true, decide_eq_true_eq] at hu
    obtain ⟨hcurrency, hminor⟩ := hu
    obtain ⟨minor, hminor, hfits⟩ := (Option.any_eq_true _ _).mp hminor
    simp only [scalarCrosses, Bool.and_eq_true, decide_eq_true_eq]
    refine ⟨hcurrency, (Option.any_eq_true _ _).mpr ⟨minor, hminor, ?_⟩⟩
    exact Decimal.fitsAt_of_equal hequal hfits
  · -- a named type holds no kind of value that is equal to another
    rename_i type
    have hsame : u = v := by
      unfold namedCrosses at hu
      cases hmembers : Table.get? lib.enumerations (scalarName type) with
      | some members =>
        rw [hmembers] at hu
        cases u <;> first | (exact absurd hu Bool.false_ne_true) | skip
        cases v <;> simp_all [Value.same]
      | none =>
        rw [hmembers] at hu
        cases u <;> first | (exact absurd hu Bool.false_ne_true) | skip
        all_goals cases v <;> simp_all [Value.same]
    rw [← hsame]
    exact hu
  · cases hu

theorem scalarCrosses_absent (s : Scalar) : scalarCrosses lib s .absent = false := by
  cases s with
  | decimal p n => rfl
  | money c => rfl
  | named type =>
    unfold scalarCrosses namedCrosses
    dsimp only
    split <;> simp_all

/-! ### What is read crosses -/

theorem decodeInt_crosses {j : Json} {u : Value} (h : decodeInt j = .ok u) :
    ∃ n, u = .int n ∧ (fits64 n).isSome = true := by
  unfold decodeInt at h
  split at h
  · split at h
    · cases h
    · split at h
      · rename_i hfits
        cases h
        exact ⟨_, rfl, hfits⟩
      · cases h
  · split at h
    · rename_i n hn
      cases h
      unfold parseInt at hn
      obtain ⟨m, _, hm⟩ := Option.bind_eq_some_iff.mp hn
      obtain rfl := (fits64_eq_some.mp hm).1
      exact ⟨_, rfl, by rw [hm]; rfl⟩
    · split at h <;> cases h
  · cases h

theorem decodeDecimal_crosses {precision scale : Nat} {j : Json} {u : Value}
    (h : decodeDecimal precision scale j = .ok u) : ∃ d : Decimal, u = .decimal d ∧
      d.fitsAt scale precision = true := by
  unfold decodeDecimal at h
  dsimp only at h
  split at h
  · cases h
  · rename_i d _
    cases hheld : heldAtScale d scale precision with
    | error why =>
      rw [hheld] at h
      cases h
    | ok held =>
      rw [hheld] at h
      cases h
      exact ⟨held, rfl, fitsAt_of_heldAtScale hheld⟩

theorem decodeMoney_crosses {currency : String} {j : Json} {u : Value}
    (h : decodeMoney currency j = .ok u) : ∃ (amount : Decimal) (minor : Nat),
      u = .money currency amount ∧ minorUnit currency = some minor ∧
        amount.fitsAt minor 18 = true := by
  unfold decodeMoney at h
  split at h
  · cases h
  rename_i minor hminor
  split at h
  · cases h
  split at h
  · cases h
  split at h
  · cases h
  split at h
  · cases h
  rename_i d _
  split at h
  · cases h
  cases hheld : heldAtScale d minor 18 with
  | error why =>
    rw [hheld] at h
    cases h
  | ok held =>
    rw [hheld] at h
    cases h
    exact ⟨held, minor, rfl, hminor, fitsAt_of_heldAtScale hheld⟩

theorem fileOf_crosses {j : Json} {u : Value} (h : fileOf j = .ok u) :
    ∃ (hash mediaType : String) (size : Int), u = .file hash size mediaType ∧
      isFileHash hash = true ∧ 0 ≤ size ∧ size ≤ SAFE_INT ∧ isMediaType mediaType = true ∧
        asciiLower mediaType = mediaType := by
  unfold fileOf at h
  split at h
  · rename_i fields
    split at h
    · cases h
    dsimp only at h
    split at h
    · cases h
    rename_i hhash
    split at h
    · cases h
    rename_i size hsize
    split at h
    · rename_i hmedia
      cases h
      obtain ⟨_, hrange⟩ := Option.filter_eq_some_iff.mp hsize
      simp only [Bool.decide_and, Bool.and_eq_true, decide_eq_true_eq] at hrange
      rw [Bool.not_eq_true', Bool.not_eq_false] at hhash
      exact ⟨_, _, size, rfl, hhash, hrange.1, hrange.2, isMediaType_asciiLower hmedia,
        asciiLower_idem _⟩
    · cases h
  · cases h

theorem decodeBy_ok {read : String → Option Value} {j : Json} {u : Value}
    (h : decodeBy read j = .ok u) : ∃ s, read s = some u := by
  unfold decodeBy at h
  split at h
  · cases h
  split at h
  · cases h
  rename_i v hv
  cases h
  exact ⟨_, hv⟩

theorem parseDuration_fits {text : String} {n : Int} (h : parseDuration text = some n) :
    fits64 n = some n := by
  unfold parseDuration at h
  dsimp only at h
  split at h
  · cases h
  obtain ⟨count, _, h⟩ := Option.bind_eq_some_iff.mp h
  obtain ⟨size, _, h⟩ := Option.bind_eq_some_iff.mp h
  obtain ⟨held, _, h⟩ := Option.bind_eq_some_iff.mp h
  obtain ⟨rfl, hrange⟩ := fits64_eq_some.mp h
  exact fits64_eq_some.mpr ⟨rfl, hrange⟩

theorem decodeText_crosses {type s : String} {u : Value} (h : decodeText lib type s = .ok u) :
    u = .text s ∧ textCrosses lib type s = true := by
  unfold decodeText at h
  split at h
  · cases h
  rename_i hidentity
  split at h
  · cases h
  rename_i hzero
  split at h
  · cases h
  rename_i hbytes
  cases h
  rw [Bool.not_eq_true] at hzero
  simp only [textCrosses, Bool.and_eq_true, Bool.not_eq_true', hzero, decide_eq_true_eq, and_true,
    true_and]
  refine ⟨?_, by omega⟩
  by_contra hboth
  rw [Bool.not_eq_false, Bool.and_eq_true, decide_eq_true_eq] at hboth
  exact hidentity hboth

/-- Whether no member of an enumeration holds a dot, as a module's schema has
them. -/
def Library.plainMembers : Bool :=
  lib.enumerations.all fun e => e.2.all fun member => !member.toList.contains '.'

theorem stripBeginning_plain {enumeration member : String} (h : member.toList.contains '.' = false) :
    stripBeginning (enumeration ++ ".") member = none := by
  unfold stripBeginning
  rw [if_neg]
  intro hbegins
  obtain ⟨rest, hrest⟩ := List.isPrefixOf_iff_prefix.mp hbegins
  have hmem : '.' ∈ member.toList := by
    rw [← hrest, String.toList_append]
    simp
  rw [← List.contains_iff_mem, h] at hmem
  cases hmem

variable {lib}

theorem decodeMember_crosses (hplain : lib.plainMembers = true) {enumeration : String}
    {members : List String} (hmembers : Table.get? lib.enumerations enumeration = some members)
    {j : Json} {u : Value} (h : decodeMember enumeration members j = .ok u) :
    ∃ member, u = .member enumeration member ∧ memberCrosses enumeration members member = true := by
  unfold decodeMember at h
  split at h
  · cases h
  dsimp only at h
  split at h
  · rename_i s _ hmember
    cases h
    refine ⟨_, rfl, ?_⟩
    have hall := List.all_eq_true.mp hplain _ (Table.mem_of_get? hmembers)
    have hdot := List.all_eq_true.mp hall _ (List.contains_iff_mem.mp hmember)
    rw [Bool.not_eq_true'] at hdot
    unfold memberCrosses
    rw [hmember, stripBeginning_plain hdot]
    simp
  · cases h

theorem decodeNamed_crosses (hplain : lib.plainMembers = true) {type : String} {j : Json} {u : Value}
    (h : decodeNamed lib type j = .ok u) : namedCrosses lib type u = true := by
  unfold decodeNamed at h
  unfold namedCrosses
  cases hmembers : Table.get? lib.enumerations type with
  | some members =>
    rw [hmembers] at h
    obtain ⟨member, rfl, hmember⟩ := decodeMember_crosses hplain hmembers h
    simp [hmember]
  | none =>
    rw [hmembers] at h
    dsimp only at h
    split at h
    · rename_i htype
      split at h
      · cases h
        exact decide_eq_true htype
      · cases h
    split at h
    · rename_i htype
      obtain ⟨n, rfl, hfits⟩ := decodeInt_crosses h
      simp only [decide_eq_true htype, hfits, Bool.and_self]
    split at h
    · rename_i htype
      obtain ⟨s, hread⟩ := decodeBy_ok h
      obtain ⟨t, ht, rfl⟩ := Option.map_eq_some_iff.mp hread
      simp only [decide_eq_true htype, parseTimestamp_inCalendar ht, Bool.and_self]
    split at h
    · rename_i htype
      obtain ⟨s, hread⟩ := decodeBy_ok h
      obtain ⟨d, hd, rfl⟩ := Option.map_eq_some_iff.mp hread
      simp only [decide_eq_true htype, parseDate_inCalendar hd, Bool.and_self]
    split at h
    · rename_i htype
      obtain ⟨s, hread⟩ := decodeBy_ok h
      obtain ⟨n, hn, rfl⟩ := Option.map_eq_some_iff.mp hread
      simp only [decide_eq_true htype, parseDuration_fits hn, Option.isSome_some, Bool.and_self]
    split at h
    · rename_i htype
      obtain ⟨hash, mediaType, size, rfl, hhash, hlow, hhigh, hmedia, hlower⟩ := fileOf_crosses h
      simp only [decide_eq_true htype, hhash, decide_eq_true hlow, decide_eq_true hhigh, hmedia,
        decide_eq_true hlower, Bool.and_self]
    split at h
    · rename_i htype
      split at h
      · cases h
      obtain ⟨rfl, htext⟩ := decodeText_crosses lib h
      simp only [decide_eq_true htype, htext, Bool.and_self]
    · cases h

/-- **A scalar read from the wire crosses.** -/
theorem decodeScalar_crosses (hplain : lib.plainMembers = true) {s : Scalar} {j : Json} {u : Value}
    (h : decodeScalar lib s j = .ok u) : scalarCrosses lib s u = true := by
  cases s with
  | decimal precision scale =>
    obtain ⟨d, rfl, hfits⟩ := decodeDecimal_crosses h
    exact hfits
  | money currency =>
    obtain ⟨amount, minor, rfl, hminor, hfits⟩ := decodeMoney_crosses h
    simp [scalarCrosses, hminor, hfits]
  | named type => exact decodeNamed_crosses hplain h

end Scalars

end ObjectFlow
