import ObjectFlow.Exact
import ObjectFlow.Query
import ObjectFlow.TimeText

/-!
# The pages of a query, read to the end

A query's order is a ranking where each key's values are of one kind, and creation
breaks every tie; so the objects its filter selects stand in one order, of which
every page is the next stretch, whichever way it was read.
-/

namespace ObjectFlow

open Base

/-! ### The order is a ranking -/

/-- The sorts of values that compare. -/
inductive ValueSort where
  | number
  | money (currency : String)
  | duration
  | timestamp
  | date
  | text
  | bool
deriving DecidableEq

/-- The sort of values a value compares with. -/
def Value.sort? : Value → Option ValueSort
  | .int n => (Decimal.fromInt n).map fun _ => .number
  | .decimal _ => some .number
  | .money currency _ => some (.money currency)
  | .duration _ => some .duration
  | .timestamp _ => some .timestamp
  | .date _ => some .date
  | .text _ => some .text
  | .bool _ => some .bool
  | _ => none

/-- The whole number a duration, a timestamp or a date is. -/
def Value.whole : Value → Int
  | .duration n | .timestamp n | .date n => n
  | _ => 0

/-- The amount of a sum of money. -/
def Value.amount : Value → ℚ
  | .money _ d => d.exact
  | _ => 0

/-- The characters of a text. -/
def Value.characters : Value → String
  | .text x => x
  | _ => ""

/-- Whether a truth value is true. -/
def Value.truth : Value → Bool
  | .bool b => b
  | _ => false

/-- Values of one sort are ranked by comparing them. -/
theorem ranking_compare? (k : ValueSort) :
    Ranking (fun v w : Value => (v.compare? w).getD .eq) fun v => v.sort? = some k := by
  have hnumber : ∀ v : Value, v.sort? = some .number → ∃ d, v.number = some d := by
    intro v hv
    cases v with
    | int n =>
        obtain ⟨d, hd, -⟩ := Option.map_eq_some_iff.mp hv
        exact ⟨d, hd⟩
    | decimal d => exact ⟨d, rfl⟩
    | _ => simp [Value.sort?] at hv
  cases k with
  | number =>
      refine Ranking.of_key (fun v : Value => (v.number.map Decimal.exact).getD 0) fun v w hv hw => ?_
      obtain ⟨x, hx⟩ := hnumber v hv
      obtain ⟨y, hy⟩ := hnumber w hw
      rw [hx, hy, Option.map_some, Option.map_some, Option.getD_some, Option.getD_some,
        ← Decimal.cmp_exact]
      cases v <;> simp only [Value.sort?, reduceCtorEq, Option.some.injEq] at hv <;>
        cases w <;> simp only [Value.sort?, reduceCtorEq, Option.some.injEq] at hw <;>
        simp [Value.compare?, hx, hy]
  | money c =>
      refine Ranking.of_key Value.amount fun v w hv hw => ?_
      cases v <;> simp [Value.sort?] at hv
      cases w <;> simp [Value.sort?] at hw
      subst hv hw
      simp [Value.compare?, Decimal.cmp_exact, Value.amount]
  | duration | timestamp | date =>
      refine Ranking.of_key Value.whole fun v w hv hw => ?_
      cases v <;> simp [Value.sort?] at hv
      cases w <;> simp [Value.sort?] at hw
      rfl
  | text =>
      refine Ranking.of_key Value.characters fun v w hv hw => ?_
      cases v <;> simp [Value.sort?] at hv
      cases w <;> simp [Value.sort?] at hw
      rfl
  | bool =>
      refine Ranking.of_key Value.truth fun v w hv hw => ?_
      cases v <;> simp [Value.sort?] at hv
      cases w <;> simp [Value.sort?] at hw
      rfl

variable {s : StoredObjects} {lib : Library}

/-- Values of one kind: each stands where its declaration places it, or none does and
they are of one sort. -/
inductive OneKind (s : StoredObjects) (lib : Library) (P : Value → Prop) : Prop where
  | placed (h : ∀ v, P v → (placeOf s lib v).isSome)
  | sorted (k : ValueSort) (h : ∀ v, P v → placeOf s lib v = none ∧ v.sort? = some k)

theorem ranking_rank {P : Value → Prop} (h : OneKind s lib P) : Ranking (rank s lib) P := by
  cases h with
  | placed h =>
      refine Ranking.of_key (fun v => (placeOf s lib v).getD 0) fun v w hv hw => ?_
      obtain ⟨a, ha⟩ := Option.isSome_iff_exists.mp (h v hv)
      obtain ⟨b, hb⟩ := Option.isSome_iff_exists.mp (h w hw)
      simp [rank, ha, hb]
  | sorted k h =>
      have hrank : ∀ v w, P v → P w → rank s lib v w = (v.compare? w).getD .eq := by
        intro v w hv hw
        simp [rank, (h v hv).1]
      have hcompare := (ranking_compare? k).mono fun v (hv : P v) => (h v hv).2
      exact ⟨fun v w hv hw => by rw [hrank v w hv hw, hrank w v hw hv, hcompare.swap v w hv hw],
        fun u v w hu hv hw huv hvw => by
          rw [hrank u v hu hv] at huv
          rw [hrank v w hv hw] at hvw
          rw [hrank u w hu hw]
          exact hcompare.trans u v w hu hv hw huv hvw⟩

/-- Objects whose present values of a key are of one kind are ranked by it. -/
theorem ranking_keyOrder {key : OrderKey × Bool} {P : HeldObject → Prop}
    (h : OneKind s lib fun v => v.isAbsent = false ∧ ∃ o, P o ∧ key.1.value o.toObject = v) :
    Ranking (keyOrder s lib key) P := by
  have hrank := ranking_rank h
  have hdirected : Ranking (fun v w => if key.2 then rank s lib w v else rank s lib v w)
      fun v => v.isAbsent = false ∧ ∃ o, P o ∧ key.1.value o.toObject = v := by
    cases key.2 with
    | true => exact hrank.reverse
    | false => exact hrank
  have hpresent : ∀ {o}, P o → (key.1.value o.toObject).isAbsent = false →
      (key.1.value o.toObject).isAbsent = false ∧
        ∃ o', P o' ∧ key.1.value o'.toObject = key.1.value o.toObject :=
    fun ho hvalue => ⟨hvalue, _, ho, rfl⟩
  constructor
  · intro a b ha hb
    unfold keyOrder
    cases hx : (key.1.value a.toObject).isAbsent <;>
      cases hy : (key.1.value b.toObject).isAbsent <;> simp only [hx, hy]
    · exact hdirected.swap _ _ (hpresent ha hx) (hpresent hb hy)
    all_goals rfl
  · intro a b c ha hb hc hab hbc
    unfold keyOrder at hab hbc ⊢
    cases hx : (key.1.value a.toObject).isAbsent <;>
      cases hy : (key.1.value b.toObject).isAbsent <;>
      cases hz : (key.1.value c.toObject).isAbsent <;>
      simp only [hx, hy, hz] at hab hbc ⊢
    case false.false.false =>
      exact hdirected.trans _ _ _ (hpresent ha hx) (hpresent hb hy) (hpresent hc hz) hab hbc
    all_goals first | exact absurd rfl hab | exact absurd rfl hbc | simp

/-- **A query's order is a ranking** of objects each of whose keys has values of one
kind. -/
theorem ranking_inOrderOf {keys : List (OrderKey × Bool)} {P : HeldObject → Prop}
    (h : ∀ key ∈ keys, OneKind s lib fun v =>
      v.isAbsent = false ∧ ∃ o, P o ∧ key.1.value o.toObject = v) :
    Ranking (inOrderOf s lib keys) P := by
  have hlast : Ranking (fun a b : HeldObject => compare a.order b.order) P :=
    .of_key (fun o => o.order) fun _ _ _ _ => rfl
  have hall := @Ranking.lexicographic _ _ P (keys.map (keyOrder s lib)) hlast fun r hr => by
    obtain ⟨key, hkey, rfl⟩ := List.mem_map.mp hr
    exact ranking_keyOrder (h key hkey)
  refine ⟨fun a b ha hb => ?_, fun a b c ha hb hc hab hbc => ?_⟩
  · simpa [inOrderOf, List.foldr_map] using hall.swap a b ha hb
  · have := hall.trans a b c ha hb hc
    simp only [List.foldr_map] at this
    exact this hab hbc

/-- Objects no key tells apart were created at one place. -/
theorem order_of_inOrderOf {keys : List (OrderKey × Bool)} {a b : HeldObject}
    (h : inOrderOf s lib keys a b = .eq) : a.order = b.order := by
  induction keys with
  | nil => exact compare_eq_iff_eq.mp h
  | cons key rest ih =>
      refine ih ?_
      have hfirst : (keyOrder s lib key a b).then (inOrderOf s lib rest a b) = .eq := h
      cases hkey : keyOrder s lib key a b with
      | eq =>
          rw [hkey] at hfirst
          exact hfirst
      | lt | gt =>
          rw [hkey] at hfirst
          cases hfirst

/-! ### Its cursors -/

theorem StoredObjects.find_id (s : StoredObjects) {o : HeldObject} (ho : o ∈ s.rows) :
    s.rows.find? (fun x => x.id = o.id) = some o := by
  cases hfind : s.rows.find? (fun x => x.id = o.id) with
  | none =>
      have := List.find?_eq_none.mp hfind o ho
      simp at this
  | some x =>
      have hid : x.id = o.id := by simpa using List.find?_some hfind
      rw [s.eq_of_id (List.mem_of_find?_eq_some hfind) ho hid]

theorem dot_not_hex : ∀ b : Fin 256, '.' ∉ hexByte b := by decide +kernel

/-- **A cursor is read back**: one answered by a read continues it after the object it
names. -/
theorem continued_cursorOf (sha : String → List (Fin 256)) {read type : String} {o : HeldObject}
    (ho : o ∈ s.rows) (hisA : lib.isA o.type type = true) :
    continued sha s lib read type (cursorOf sha read o.id) = some o := by
  have hlist : (cursorOf sha read o.id).toList =
      (readDigest sha read).toList ++ '.' :: o.id.toList := by
    simp [cursorOf, String.toList_append, List.append_assoc]
  have hdigest : ∀ c ∈ (readDigest sha read).toList, c ≠ '.' := by
    intro c hc hdot
    rw [readDigest, String.toList_ofList] at hc
    obtain ⟨b, -, hb⟩ := List.mem_flatMap.mp hc
    exact dot_not_hex b (hdot ▸ hb)
  unfold continued
  rw [splitOnce_eq hlist hdigest]
  simp only [String.ofList_toList, ne_eq, not_true_eq_false, if_false]
  rw [s.find_id ho]
  simp [Option.filter, hisA]

/-! ### A page -/

namespace Query

variable {m : MetricReader} {w : World} {summary : List String} {wireBytes : Value → Nat}
  {sha : String → List (Fin 256)}

theorem judgedAll_spec {judge : HeldObject → Except QueryStop Bool} {p : HeldObject → Bool}
    {objects : List HeldObject} (h : ∀ o ∈ objects, judge o = .ok (p o)) :
    judgedAll judge objects = .ok (objects.filter p) := by
  induction objects with
  | nil => rfl
  | cons o rest ih =>
      obtain ⟨ho, hrest⟩ := List.forall_mem_cons.mp h
      rw [judgedAll, ho, ih hrest]
      cases hp : p o <;> simp [hp, bind, Except.bind, pure, Except.pure]

theorem itemOf_id {asked : List String} {o : HeldObject} {it : Item}
    (h : itemOf m w asked o = .ok (some it)) : it.id = o.id := by
  unfold itemOf at h
  split at h
  · cases h
  · obtain ⟨fields, -, h⟩ := ok_of_bind h
    split at h
    · cases h
    · cases h
      rfl

/-- A page's items are the first of the objects it is of, one at least, and it is cut
only where some are left. -/
theorem itemsTo_spec {asked : List String} {item : HeldObject → Item} {objects : List HeldObject}
    {bytes : Nat} (h : ∀ o ∈ objects, itemOf m w asked o = .ok (some (item o))) :
    ∃ n cut, itemsTo m w wireBytes asked objects bytes =
        .ok (some ((objects.take n).map item, cut)) ∧
      (cut = true → n < objects.length) ∧ (cut = false → objects.length ≤ n) ∧
      (bytes < PAGE_BYTES → objects ≠ [] → 0 < n) := by
  induction objects generalizing bytes with
  | nil => exact ⟨0, false, rfl, by simp, by simp, by simp⟩
  | cons o rest ih =>
      obtain ⟨ho, hrest⟩ := List.forall_mem_cons.mp h
      rw [itemsTo]
      by_cases hfull : PAGE_BYTES ≤ bytes
      · rw [if_pos hfull]
        exact ⟨0, true, rfl, by simp, by simp, fun hless => by omega⟩
      · rw [if_neg hfull, ho]
        obtain ⟨n, cut, hread, hcut, hall, -⟩ := @ih (bytes + itemBytes wireBytes (item o)) hrest
        refine ⟨n + 1, cut, ?_, fun h => ?_, fun h => ?_, fun _ _ => by omega⟩
        · simp only [bind, Except.bind, hread]
          rfl
        · simpa using hcut h
        · simpa using hall h

variable (m w s summary) in
/-- A query the store can answer: its filter and its keys are ones the type has, its
filter answers for each object it reads, each it selects has the fields asked, and
each key has values of one kind. -/
structure Answerable (q : Query) (t : FlowType) (filter : Option Expr)
    (keys : List (OrderKey × Bool)) (p : HeldObject → Bool) (item : HeldObject → Item) :
    Prop where
  known : w.lib.type? q.type = some t
  parses : q.filter = filter.map Except.ok
  unasked : filter = none → q.params = false
  ordered : q.order.mapM (orderKey w.lib t) = some keys
  judges : ∀ o ∈ s.narrowed w.lib q.type (filterNarrows w.lib q.type filter),
    Query.selects m w filter o = .ok (p o)
  gives : ∀ o ∈ s.narrowed w.lib q.type (filterNarrows w.lib q.type filter), p o = true →
    itemOf m w (q.fields.getD summary) o = .ok (some (item o))
  kinds : ∀ key ∈ keys, OneKind s w.lib fun v => v.isAbsent = false ∧ ∃ o,
    o ∈ (s.narrowed w.lib q.type (filterNarrows w.lib q.type filter)).filter p ∧
      key.1.value o.toObject = v

variable {q : Query} {t : FlowType} {filter : Option Expr} {keys : List (OrderKey × Bool)}
  {p : HeldObject → Bool} {item : HeldObject → Item}

/-- The objects a query selects, in creation order. -/
def selected (w : World) (s : StoredObjects) (q : Query) (filter : Option Expr)
    (p : HeldObject → Bool) : List HeldObject :=
  (s.narrowed w.lib q.type (filterNarrows w.lib q.type filter)).filter p

theorem selected_stored {o : HeldObject} (ho : o ∈ selected w s q filter p) : o ∈ s.rows :=
  (List.mem_filter.mp (List.mem_filter.mp ho).1).1

/-- Each object a query selects has a place of its own in its order. -/
theorem Answerable.exists_place (h : Answerable s m w summary q t filter keys p item) :
    ∃ place : HeldObject → ℕ, ∀ a ∈ selected w s q filter p, ∀ b ∈ selected w s q filter p,
      inOrderOf s w.lib keys a b = compare (place a) (place b) := by
  refine (ranking_inOrderOf h.kinds).exists_place fun a ha b hb heq => ?_
  exact s.ascending.unique (selected_stored ha) (selected_stored hb) (order_of_inOrderOf heq)

/-- **What a page chooses**: by a key the whole it selects; in creation order the
first of what is left, more than its limit or all. -/
theorem Answerable.chosen (h : Answerable s m w summary q t filter keys p item)
    {start : Option HeldObject} {held : Held} (hm : held.Mirrors s) (limit : Nat) :
    ∃ found held', Query.chosen m w s q filter keys start limit held = (.ok found, held') ∧
      (keys ≠ [] → found = selected w s q filter p) ∧
      (keys = [] →
        found <+: leftAfter (fun o : HeldObject => o.order) (fun o : HeldObject => o.order)
          (selected w s q filter p) start ∧
        (limit < found.length ∨
          found = leftAfter (fun o : HeldObject => o.order) (fun o : HeldObject => o.order)
            (selected w s q filter p) start)) := by
  unfold Query.chosen
  by_cases hkeys : keys = []
  · rw [if_pos hkeys]
    have hleft : (s.narrowedFrom w.lib q.type (filterNarrows w.lib q.type filter)
        ((start.map fun o => o.order).getD i64Min)).filter p =
        leftAfter (fun o : HeldObject => o.order) (fun o : HeldObject => o.order)
          (selected w s q filter p) start := by
      unfold StoredObjects.narrowedFrom selected
      cases start with
      | none =>
          rw [Option.map_none, Option.getD_none, leftAfter]
          refine congrArg (List.filter p) (List.filter_eq_self.mpr fun o ho => ?_)
          exact decide_eq_true (s.placed o (List.mem_filter.mp ho).1)
      | some f =>
          rw [Option.map_some, Option.getD_some, leftAfter, List.filter_filter, List.filter_filter]
          exact List.filter_congr fun o _ => Bool.and_comm ..
    have hjudge : ∀ o ∈ s.narrowedFrom w.lib q.type (filterNarrows w.lib q.type filter)
        ((start.map fun o => o.order).getD i64Min), Query.selects m w filter o = .ok (p o) :=
      fun o ho => h.judges o (List.mem_filter.mp ho).1
    have hfuel : (s.narrowedFrom w.lib q.type (filterNarrows w.lib q.type filter)
        ((start.map fun o => o.order).getD i64Min)).length < s.rows.length + 1 :=
      Nat.lt_succ_of_le ((List.length_filter_le ..).trans (List.length_filter_le ..))
    obtain ⟨found, held', hread, -, hbegins, hdone⟩ :=
      @chosenFrom_spec (Query.selects m w filter) limit [] p s w.lib q.type
        (filterNarrows w.lib q.type filter) (by rw [h.known]; rfl) (s.rows.length + 1) _ held hm hfuel
        hjudge (Nat.zero_le _)
    rw [List.nil_append, hleft] at hbegins hdone
    exact ⟨found, held', by rw [hread], fun hne => absurd hkeys hne, fun _ => ⟨hbegins, hdone⟩⟩
  · rw [if_neg hkeys]
    exact ⟨selected w s q filter p, held, by rw [judgedAll_spec h.judges]; rfl,
      fun _ => rfl, fun hnil => absurd hnil hkeys⟩

/-- What is left of the objects a query selects, in its order, after one of them. -/
def leftOf (w : World) (s : StoredObjects) (q : Query) (filter : Option Expr)
    (keys : List (OrderKey × Bool)) (p : HeldObject → Bool) (place : HeldObject → ℕ)
    (start : Option HeldObject) : List HeldObject :=
  leftAfter place place ((selected w s q filter p).mergeSort
    fun a b => inOrderOf s w.lib keys a b != Ordering.gt) start

/-- **A page is the next of what is left**, read either way. -/
theorem Answerable.left (h : Answerable s m w summary q t filter keys p item)
    {place : HeldObject → ℕ}
    (hplace : ∀ a ∈ selected w s q filter p, ∀ b ∈ selected w s q filter p,
      inOrderOf s w.lib keys a b = compare (place a) (place b))
    {start : Option HeldObject} (hstart : ∀ f, start = some f → f ∈ selected w s q filter p)
    {found : List HeldObject} {limit : Nat}
    (hkeyed : keys ≠ [] → found = selected w s q filter p)
    (hcreated : keys = [] →
      found <+: leftAfter (fun o : HeldObject => o.order) (fun o : HeldObject => o.order)
        (selected w s q filter p) start ∧
      (limit < found.length ∨
        found = leftAfter (fun o : HeldObject => o.order) (fun o : HeldObject => o.order)
          (selected w s q filter p) start)) :
    leftFound w s keys start found <+: leftOf w s q filter keys p place start ∧
      (limit < (leftFound w s keys start found).length ∨
        leftFound w s keys start found = leftOf w s q filter keys p place start) := by
  -- what comes after the cursor's object is at a greater place
  have hafter : ∀ f, start = some f → ∀ o ∈ selected w s q filter p,
      (inOrderOf s w.lib keys o f == Ordering.gt) = decide (place f < place o) := by
    intro f hf o ho
    rw [hplace o ho f (hstart f hf), Bool.eq_iff_iff, beq_iff_eq, compare_gt_iff_gt,
      decide_eq_true_eq]
  by_cases hkeys : keys = []
  · subst hkeys
    obtain ⟨hbegins, hdone⟩ := hcreated rfl
    have hsorted : ∀ objects : List HeldObject, Ascending (fun o : HeldObject => o.order) objects →
        objects.mergeSort (fun a b => inOrderOf s w.lib [] a b != Ordering.gt) = objects := by
      intro objects hascending
      refine List.mergeSort_of_pairwise (hascending.imp fun hab => ?_)
      have : inOrderOf s w.lib [] _ _ = .lt := compare_lt_iff_lt.mpr hab
      rw [this]
      rfl
    have hall : Ascending (fun o : HeldObject => o.order) (selected w s q filter p) :=
      (s.ascending.filter _).filter _
    have hleft : leftOf w s q filter [] p place start =
        leftAfter (fun o : HeldObject => o.order) (fun o : HeldObject => o.order)
          (selected w s q filter p) start := by
      unfold leftOf
      rw [hsorted _ hall]
      cases start with
      | none => rfl
      | some f =>
          refine List.filter_congr fun o ho => ?_
          rw [← hafter f rfl o ho, Bool.eq_iff_iff, beq_iff_eq, decide_eq_true_eq]
          exact compare_gt_iff_gt
    have hfound : Ascending (fun o : HeldObject => o.order) found :=
      (hall.past start).sublist hbegins.sublist
    have hsame : leftFound w s [] start found = found := by
      unfold leftFound
      cases start with
      | none => exact hsorted _ hfound
      | some f =>
          dsimp only
          rw [hsorted _ hfound, List.filter_eq_self]
          intro o ho
          have := of_decide_eq_true (List.mem_filter.mp (hbegins.subset ho)).2
          rw [beq_iff_eq]
          exact compare_gt_iff_gt.mpr this
    rw [hsame, hleft]
    exact ⟨hbegins, hdone⟩
  · obtain rfl := hkeyed hkeys
    have hsame : leftFound w s keys start (selected w s q filter p) =
        leftOf w s q filter keys p place start := by
      unfold leftFound leftOf
      cases start with
      | none => rfl
      | some f =>
          exact List.filter_congr fun o ho =>
            hafter f rfl o ((List.mergeSort_perm _ _).mem_iff.mp ho)
    rw [hsame]
    exact ⟨List.prefix_refl _, .inr rfl⟩

/-- What a page of a query answers a caller who reads on: its items and its cursor. -/
def answered : Except QueryStop QueryPage → List Item × Option String
  | .ok page => (page.items, page.cursor)
  | .error _ => ([], none)

/-- **A page gives the first of what is left**, one at least where any is, and its
cursor names the last of them where it left some out. -/
theorem Answerable.page (h : Answerable s m w summary q t filter keys p item)
    {place : HeldObject → ℕ}
    (hplace : ∀ a ∈ selected w s q filter p, ∀ b ∈ selected w s q filter p,
      inOrderOf s w.lib keys a b = compare (place a) (place b))
    {start : Option HeldObject} (hstart : ∀ f, start = some f → f ∈ selected w s q filter p)
    {limit : Nat} (hlimit : 0 < limit) {held : Held} (hm : held.Mirrors s) :
    ∃ n, answered (Query.page m w s summary wireBytes sha q
        (start.map fun f => cursorOf sha q.read f.id) limit held).1 =
          (((leftOf w s q filter keys p place start).take n).map item,
            if n < (leftOf w s q filter keys p place start).length then
              ((leftOf w s q filter keys p place start).take n).getLast?.map
                fun o => cursorOf sha q.read o.id
            else none) ∧
      (leftOf w s q filter keys p place start ≠ [] → 0 < n) := by
  -- the cursor is read back as the object it names
  have hcontinued : (start.map fun f => cursorOf sha q.read f.id).map
      (continued sha s w.lib q.read q.type) = start.map some := by
    cases start with
    | none => rfl
    | some f =>
        have hf := hstart f rfl
        have hisA : w.lib.isA f.type q.type = true := by
          have := (List.mem_filter.mp (List.mem_filter.mp hf).1).2
          rw [Bool.and_eq_true] at this
          exact this.1
        rw [Option.map_some, Option.map_some, Option.map_some,
          continued_cursorOf sha (selected_stored hf) hisA]
  have hfound : (start.map some).any (·.isNone) = false := by cases start <;> rfl
  have hjoin : (start.map some).join = start := by cases start <;> rfl
  have hparams : (q.filter.isNone && q.params) = false := by
    cases hfilter : filter with
    | none => rw [h.unasked hfilter, Bool.and_false]
    | some e =>
        rw [h.parses, hfilter]
        rfl
  obtain ⟨found, held', hchosen, hkeyed, hcreated⟩ :=
    @Answerable.chosen s m w summary q t filter keys p item h start held hm limit
  obtain ⟨hbegins, hdone⟩ := h.left hplace hstart hkeyed hcreated
  generalize hL : leftOf w s q filter keys p place start = L at hbegins hdone ⊢
  have hin : ∀ o ∈ L, o ∈ selected w s q filter p := by
    subst hL
    intro o ho
    have hsorted : o ∈ (selected w s q filter p).mergeSort
        fun a b => inOrderOf s w.lib keys a b != Ordering.gt := by
      cases start with
      | none => exact ho
      | some f => exact (List.mem_filter.mp ho).1
    exact (List.mergeSort_perm _ _).mem_iff.mp hsorted
  have hfirst : (leftFound w s keys start found).take limit = L.take limit := by
    rcases hdone with hless | hall
    · obtain ⟨rest, rfl⟩ := hbegins
      rw [List.take_append_of_le_length hless.le]
    · rw [hall]
  obtain ⟨n, cut, hitems, hcut, hwhole, hpos⟩ := @itemsTo_spec m w wireBytes
    (q.fields.getD summary) item ((leftFound w s keys start found).take limit) 0 fun o ho => by
      rw [hfirst] at ho
      obtain ⟨hread, htrue⟩ := List.mem_filter.mp (hin o (List.mem_of_mem_take ho))
      exact h.gives o hread htrue
  have hpage : Query.page m w s summary wireBytes sha q
      (start.map fun f => cursorOf sha q.read f.id) limit held =
        (pageOf m w s summary wireBytes sha q keys start limit found, held') := by
    unfold Query.page
    rw [h.known]
    dsimp only
    rw [hcontinued, hfound, hparams, h.parses, h.ordered, hjoin]
    cases filter <;> simp only [Option.map_none, Option.map_some, Option.bind_none,
      Option.bind_some, Except.toOption, Bool.false_eq_true, if_false, hchosen]
  -- it is cut, or more than its limit are left, just where it leaves some out
  have hleaves : (cut || decide (limit < (leftFound w s keys start found).length)) =
      decide (min n limit < L.length) := by
    rw [hfirst, List.length_take] at hcut hwhole
    have hlength := hbegins.length_le
    rw [Bool.eq_iff_iff, Bool.or_eq_true, decide_eq_true_eq, decide_eq_true_eq]
    refine ⟨fun hleft => hleft.elim (fun hc => ?_) fun hmore => ?_, fun hless => ?_⟩
    · have := hcut hc
      omega
    · omega
    · cases hc : cut with
      | true => exact .inl rfl
      | false =>
          have := hwhole hc
          refine .inr (hdone.elim id fun hall => ?_)
          rw [hall]
          omega
  refine ⟨min n limit, ?_, fun hne => lt_min (hpos (by decide) ?_) hlimit⟩
  · have htake : (L.take limit).take n = L.take (min n limit) := List.take_take
    have hids : (((L.take (min n limit)).map item).getLast?.map fun it => cursorOf sha q.read it.id) =
        (L.take (min n limit)).getLast?.map fun o => cursorOf sha q.read o.id := by
      rw [List.getLast?_map, Option.map_map]
      refine Option.map_congr fun o ho => ?_
      obtain ⟨hread, htrue⟩ := List.mem_filter.mp
        (hin o (List.mem_of_mem_take (List.mem_of_getLast? ho)))
      rw [Function.comp_apply, itemOf_id (h.gives o hread htrue)]
    rw [hpage]
    unfold pageOf
    dsimp only
    rw [hitems, hfirst, htake]
    simp only [bind, Except.bind, pure, Except.pure, answered, hids, hleaves, decide_eq_true_eq]
  · rw [hfirst]
    exact fun hnil => (List.take_eq_nil_iff.mp hnil).elim (by omega) hne

/-- **A query read to its last page** gives each object its filter selects once, in
the query's order, whatever limits its pages were asked with and whatever the reads
before each left held: no object is given twice and none is left out. -/
theorem pages_read_to_end (h : Answerable s m w summary q t filter keys p item)
    {limits : Nat → Nat} (hlimits : ∀ k, 0 < limits k) {helds : Nat → Held}
    (hm : ∀ k, (helds k).Mirrors s) :
    ∃ objects : List HeldObject, objects.Perm (selected w s q filter p) ∧
      objects.Pairwise (fun a b => inOrderOf s w.lib keys a b = .lt) ∧
      ∃ fuel, followPages (fun k cursor => answered
        (page m w s summary wireBytes sha q cursor (limits k) (helds k)).1) fuel 0 none =
          some (objects.map item) := by
  obtain ⟨place, hplace⟩ := h.exists_place
  have hperm := List.mergeSort_perm (selected w s q filter p)
    fun a b => inOrderOf s w.lib keys a b != Ordering.gt
  have hin : ∀ {o}, o ∈ (selected w s q filter p).mergeSort
      (fun a b => inOrderOf s w.lib keys a b != Ordering.gt) → o ∈ selected w s q filter p :=
    fun ho => hperm.mem_iff.mp ho
  have hascending : Ascending place ((selected w s q filter p).mergeSort
      fun a b => inOrderOf s w.lib keys a b != Ordering.gt) := by
    have hapart : (selected w s q filter p).Nodup :=
      ((List.Nodup.of_map _ s.ids).filter _).filter _
    refine ((sorted_by_place hplace).and (hperm.nodup_iff.mpr hapart)).imp_of_mem ?_
    intro a b ha hb hab
    refine lt_of_le_of_ne hab.1 fun heq => hab.2 ?_
    refine s.ascending.unique (selected_stored (hin ha)) (selected_stored (hin hb))
      (@order_of_inOrderOf s w.lib keys a b ?_)
    rw [hplace a (hin ha) b (hin hb), heq]
    exact compare_eq_iff_eq.mpr rfl
  refine ⟨_, hperm, hascending.imp_of_mem fun ha hb hab => ?_, ?_⟩
  · rw [hplace _ (hin ha) _ (hin hb)]
    exact compare_lt_iff_lt.mpr hab
  · -- a cursor stands at the place of the object it names
    let standsAt : String → ℕ := fun c => ((continued sha s w.lib q.read q.type c).map place).getD 0
    have hstands : ∀ o ∈ selected w s q filter p, place o = standsAt (cursorOf sha q.read o.id) := by
      intro o ho
      have hisA := (Bool.and_eq_true _ _ ▸ (List.mem_filter.mp (List.mem_filter.mp ho).1).2).1
      rw [show standsAt (cursorOf sha q.read o.id) = ((continued sha s w.lib q.read q.type
        (cursorOf sha q.read o.id)).map place).getD 0 from rfl,
        continued_cursorOf sha (selected_stored ho) hisA]
      rfl
    refine @followPages_images _ _ _ _ place standsAt _ _ _
      (fun c => ∃ o ∈ selected w s q filter p, c = cursorOf sha q.read o.id) item hascending
      fun k cursor hvalid => ?_
    obtain ⟨start, hstart, rfl⟩ : ∃ start : Option HeldObject,
        (∀ f, start = some f → f ∈ selected w s q filter p) ∧
          cursor = start.map fun f => cursorOf sha q.read f.id := by
      cases cursor with
      | none => exact ⟨none, fun f hf => (by cases hf), rfl⟩
      | some c =>
          obtain ⟨o, ho, rfl⟩ := hvalid c rfl
          exact ⟨some o, fun f hf => Option.some.inj hf ▸ ho, rfl⟩
    obtain ⟨n, hread, hpos⟩ := @Answerable.page s m w summary wireBytes sha q t filter keys p item h
      place hplace start hstart (limits k) (hlimits k) (helds k) (hm k)
    have hleft : leftAfter place standsAt ((selected w s q filter p).mergeSort
        fun a b => inOrderOf s w.lib keys a b != Ordering.gt)
          (start.map fun f => cursorOf sha q.read f.id) =
        leftOf w s q filter keys p place start := by
      cases start with
      | none => rfl
      | some f =>
          rw [Option.map_some, leftAfter, ← hstands f (hstart f rfl)]
          rfl
    have hmem : ∀ o ∈ leftOf w s q filter keys p place start, o ∈ selected w s q filter p := by
      intro o ho
      cases start with
      | none => exact hin ho
      | some f => exact hin (List.mem_filter.mp ho).1
    rw [hread, hleft]
    refine ⟨_, rfl, PageOf.first_few (fun o ho => hstands o (hmem o ho)) hpos, fun c hc => ?_⟩
    dsimp only at hc
    split at hc
    · obtain ⟨o, ho, rfl⟩ := Option.map_eq_some_iff.mp hc
      exact ⟨o, hmem o (List.mem_of_mem_take (List.mem_of_getLast? ho)), rfl⟩
    · cases hc

end Query

end ObjectFlow
