import Mathlib.Data.List.Basic
import Mathlib.Order.Lattice

/-!
# Reading a list page by page

A list stands in the order of its entries' keys, and is read a page at a time.
A page is asked for after a cursor, which stands at a key, and answers some of
the first entries past it: all that are left, or a few and a cursor at the last
one to go on from.  How many it answers may differ from page to page.  Following
the cursor from none to the last page then gives every entry once, in order.
-/

namespace Base

/-- The pages read one after another, each from the cursor the one before it
answered, as many as the fuel lasts; none where it does not reach the last. -/
def followPages {ε γ : Type*} (page : Nat → Option γ → List ε × Option γ) :
    Nat → Nat → Option γ → Option (List ε)
  | 0, _, _ => none
  | fuel + 1, k, cursor =>
      match (page k cursor).2 with
      | none => some (page k cursor).1
      | some c => (followPages page fuel (k + 1) (some c)).map ((page k cursor).1 ++ ·)

variable {ε κ γ : Type*} [LinearOrder κ] (key : ε → κ) (place : γ → κ)

/-- Entries in the order of their keys, each key once. -/
def Ascending (entries : List ε) : Prop := entries.Pairwise fun a b => key a < key b

/-- What is left of the entries after a cursor: all of them where there is
none. -/
def leftAfter (entries : List ε) : Option γ → List ε
  | none => entries
  | some c => entries.filter fun e => place c < key e

/-- A page of what is left: the first of it, and where that is not all of it, a
cursor at the last one. -/
structure PageOf (left : List ε) (page : List ε × Option γ) : Prop where
  first : ∃ n, page.1 = left.take n
  all : page.2 = none → page.1 = left
  goesOn : ∀ c, page.2 = some c → ∃ e, page.1.getLast? = some e ∧ key e = place c

variable {key} {place} {entries : List ε} {n : Nat}

omit [LinearOrder κ] in
/-- Rows of the first `limit` left, all of those or some of their first, are a page,
which names its last row where it left some of them out or took as many as the
limit. -/
theorem PageOf.cut {left rows : List ε} {whole : Bool} {limit count : Nat} {mark : ε → γ}
    (hmark : ∀ e, key e = place (mark e)) (hlimit : 0 < limit) (hcount : count = min limit left.length)
    (hrows : (whole = true ∧ rows = left.take limit) ∨
      whole = false ∧ ∃ n, rows = (left.take limit).take (n + 1) ∧ left.take limit ≠ []) :
    PageOf key place left
      (rows, if !whole || count = limit then rows.getLast?.map mark else none) := by
  refine ⟨?_, fun hnone => ?_, fun c hc => ?_⟩
  · rcases hrows with ⟨-, rfl⟩ | ⟨-, n, rfl, -⟩
    · exact ⟨limit, rfl⟩
    · exact ⟨min (n + 1) limit, List.take_take⟩
  · dsimp only at hnone ⊢
    rcases hrows with ⟨rfl, rfl⟩ | ⟨rfl, n, rfl, hne⟩
    · by_cases hfull : count = limit
      · -- a full page ends at a row, so it names where to go on from
        simp only [hfull, decide_true, Bool.or_true, if_true, Option.map_eq_none_iff,
          List.getLast?_eq_none_iff, List.take_eq_nil_iff] at hnone
        rcases hnone with hzero | hnil
        · omega
        · rw [hnil, List.take_nil]
      · exact List.take_of_length_le (by omega)
    · simp only [Bool.not_false, Bool.true_or, if_true, Option.map_eq_none_iff,
        List.getLast?_eq_none_iff, List.take_eq_nil_iff, Nat.succ_ne_zero, false_or] at hnone
      exact absurd (List.take_eq_nil_iff.mpr hnone) hne
  · dsimp only at hc
    split at hc
    · obtain ⟨e, he, rfl⟩ := Option.map_eq_some_iff.mp hc
      exact ⟨e, he, hmark e⟩
    · cases hc

omit [LinearOrder κ] in
/-- The first few left, one at least where any are, are a page, which names its last
where it left some out. -/
theorem PageOf.first_few {left : List ε} {mark : ε → γ} (hmark : ∀ e ∈ left, key e = place (mark e))
    (hn : left ≠ [] → 0 < n) :
    PageOf key place left
      (left.take n, if n < left.length then (left.take n).getLast?.map mark else none) := by
  refine ⟨⟨n, rfl⟩, fun hnone => ?_, fun c hc => ?_⟩
  · dsimp only at hnone ⊢
    split at hnone
    case isTrue hless =>
      have hpos := hn (List.length_pos_iff.mp (by omega))
      rw [Option.map_eq_none_iff, List.getLast?_eq_none_iff, List.take_eq_nil_iff] at hnone
      rcases hnone with hzero | hnil
      · omega
      · rw [hnil, List.take_nil]
    case isFalse hall => exact List.take_of_length_le (by omega)
  · dsimp only at hc
    split at hc
    · obtain ⟨e, he, rfl⟩ := Option.map_eq_some_iff.mp hc
      exact ⟨e, he, hmark e (List.mem_of_mem_take (List.mem_of_getLast? he))⟩
    · cases hc

theorem Ascending.past (h : Ascending key entries) (cursor : Option γ) :
    Ascending key (leftAfter key place entries cursor) := by
  cases cursor with
  | none => exact h
  | some c => exact h.filter _

/-- An entry of an ascending list is where its key is. -/
theorem Ascending.unique (h : Ascending key entries) {a b : ε} (ha : a ∈ entries)
    (hb : b ∈ entries) (hkey : key a = key b) : a = b := by
  induction entries with
  | nil => cases ha
  | cons e rest ih =>
      obtain ⟨hfirst, hrest⟩ := List.pairwise_cons.mp h
      rcases List.mem_cons.mp ha with hae | hae <;> rcases List.mem_cons.mp hb with hbe | hbe
      · exact hae.trans hbe.symm
      · exact absurd hkey (hae ▸ hfirst b hbe).ne
      · exact absurd hkey.symm (hbe ▸ hfirst a hae).ne
      · exact ih hrest hae hbe

/-- **The first of some are the first of all**: entries that hold the first `n` of
a list, and nothing that is not in it, begin with them. -/
theorem Ascending.take_eq {some : List ε} (hall : Ascending key entries)
    (hsome : Ascending key some) (hin : ∀ e ∈ some, e ∈ entries)
    (hfirst : ∀ e ∈ entries.take n, e ∈ some) : some.take n = entries.take n := by
  induction n generalizing entries some with
  | zero => rfl
  | succ n ih =>
      cases entries with
      | nil =>
          cases some with
          | nil => rfl
          | cons b _ => cases hin b List.mem_cons_self
      | cons a rest =>
          obtain ⟨hafter, hrest⟩ := List.pairwise_cons.mp hall
          have ha : a ∈ some := hfirst a (by simp)
          cases some with
          | nil => cases ha
          | cons b others =>
              obtain ⟨hafter', hothers⟩ := List.pairwise_cons.mp hsome
              have hab : a = b := by
                rcases List.mem_cons.mp ha with hab | hlater
                · exact hab
                · rcases List.mem_cons.mp (hin b List.mem_cons_self) with hba | hlater'
                  · exact hba.symm
                  · exact absurd ((hafter' a hlater).trans (hafter b hlater')) (lt_irrefl _)
              subst hab
              rw [List.take_succ_cons, List.take_succ_cons]
              refine congrArg _ (ih hrest hothers (fun e he => ?_) fun e he => ?_)
              · rcases List.mem_cons.mp (hin e (List.mem_cons_of_mem _ he)) with rfl | hlater
                · exact absurd (hafter' e he) (lt_irrefl _)
                · exact hlater
              · have hmem := hfirst e (by
                  rw [List.take_succ_cons]
                  exact List.mem_cons_of_mem _ he)
                rcases List.mem_cons.mp hmem with rfl | hlater
                · exact absurd (hafter e (List.mem_of_mem_take he)) (lt_irrefl _)
                · exact hlater

/-- Of the first `n`, those selected are of the first `n` selected. -/
theorem mem_take_filter {l : List ε} {p : ε → Bool} {e : ε} (h : e ∈ l.take n)
    (hp : p e = true) : e ∈ (l.filter p).take n := by
  induction l generalizing n with
  | nil => simp at h
  | cons a rest ih =>
      cases n with
      | zero => simp at h
      | succ n =>
          rw [List.take_succ_cons] at h
          cases hpa : p a with
          | true =>
              rw [List.filter_cons_of_pos hpa, List.take_succ_cons]
              rcases List.mem_cons.mp h with heq | hlater
              · rw [heq]
                exact List.mem_cons_self
              · exact List.mem_cons_of_mem _ (ih hlater)
          | false =>
              rw [List.filter_cons_of_neg (by simp [hpa])]
              rcases List.mem_cons.mp h with heq | hlater
              · rw [heq, hpa] at hp
                cases hp
              · exact List.take_subset_take_left _ (Nat.le_succ n) (ih hlater)

/-- Ascending lists of the same entries are one. -/
theorem Ascending.ext {other : List ε} (h : Ascending key entries) (hother : Ascending key other)
    (hmem : ∀ e, e ∈ other ↔ e ∈ entries) : other = entries := by
  have htake := h.take_eq (n := max other.length entries.length) hother (fun e he => (hmem e).mp he)
    fun e he => (hmem e).mpr (List.mem_of_mem_take he)
  rwa [List.take_of_length_le (Nat.le_max_left ..),
    List.take_of_length_le (Nat.le_max_right ..)] at htake

/-- After the last of the first `n`, what is left is the rest. -/
theorem Ascending.leftAfter_last {cursor : Option γ} (h : Ascending key entries)
    (left : List ε) (hleft : left = leftAfter key place entries cursor) {e : ε}
    (hlast : (left.take n).getLast? = some e) {c : γ} (hc : key e = place c) :
    leftAfter key place entries (some c) = left.drop n := by
  have hascending : Ascending key left := hleft ▸ h.past cursor
  have he : e ∈ left := List.mem_of_mem_take (List.mem_of_getLast? hlast)
  have hfilter : leftAfter key place entries (some c) = left.filter fun x => key e < key x := by
    subst hleft
    rw [hc]
    cases cursor with
    | none => rfl
    | some c' =>
        have hpast : place c' < key e := of_decide_eq_true (List.mem_filter.mp he).2
        rw [hc] at hpast
        rw [leftAfter, leftAfter, List.filter_filter]
        refine List.filter_congr fun x _ => ?_
        rw [Bool.eq_iff_iff, Bool.and_eq_true, decide_eq_true_eq, decide_eq_true_eq]
        exact ⟨fun hx => ⟨hx, hpast.trans hx⟩, fun hx => hx.1⟩
  rw [hfilter]
  have hsplit := List.take_append_drop n left
  have hordered : Ascending key (left.take n ++ left.drop n) := hsplit.symm ▸ hascending
  obtain ⟨htake, -, hacross⟩ := List.pairwise_append.mp hordered
  obtain ⟨front, hfront⟩ := List.getLast?_eq_some_iff.mp hlast
  have hnone : (left.take n).filter (fun x => key e < key x) = [] := by
    rw [List.filter_eq_nil_iff]
    intro x hx
    rw [hfront] at hx htake
    rcases List.mem_append.mp hx with hbefore | hx
    · have := (List.pairwise_append.mp htake).2.2 x hbefore e (List.mem_singleton.mpr rfl)
      simp [this.le]
    · cases List.mem_singleton.mp hx
      simp
  have hall : (left.drop n).filter (fun x => key e < key x) = left.drop n := by
    rw [List.filter_eq_self]
    intro x hx
    exact decide_eq_true (hacross e (List.mem_of_getLast? hlast) x hx)
  calc left.filter (fun x => key e < key x)
      = (left.take n ++ left.drop n).filter (fun x => key e < key x) := by rw [hsplit]
    _ = left.drop n := by rw [List.filter_append, hnone, hall, List.nil_append]

/-- What comes no later than the last of the first `n` is among them. -/
theorem Ascending.mem_take_of_le (h : Ascending key entries) {last e : ε}
    (hlast : (entries.take n).getLast? = some last) (he : e ∈ entries) (hle : key e ≤ key last) :
    e ∈ entries.take n := by
  have hsplit := List.take_append_drop n entries
  rw [← hsplit] at he
  rcases List.mem_append.mp he with hfirst | hlater
  · exact hfirst
  · have hordered : Ascending key (entries.take n ++ entries.drop n) := hsplit.symm ▸ h
    have hacross := (List.pairwise_append.mp hordered).2.2 last (List.mem_of_getLast? hlast) e hlater
    exact absurd hle (not_le.mpr hacross)

/-- An ascending list, parted at a key. -/
theorem Ascending.parted (h : Ascending key entries) (k : κ) :
    entries = entries.filter (fun e => key e ≤ k) ++ entries.filter fun e => k < key e := by
  induction entries with
  | nil => rfl
  | cons e rest ih =>
      obtain ⟨hfirst, hrest⟩ := List.pairwise_cons.mp h
      by_cases hle : key e ≤ k
      · rw [List.filter_cons_of_pos (by simpa using hle),
          List.filter_cons_of_neg (by simpa using hle), List.cons_append, ← ih hrest]
      · have hlater : ∀ x ∈ rest, k < key x := fun x hx => (not_le.mp hle).trans (hfirst x hx)
        rw [List.filter_cons_of_neg (by simpa using hle),
          List.filter_cons_of_pos (by simpa using hle),
          List.filter_eq_nil_iff.mpr fun x hx => by simpa using hlater x hx,
          List.filter_eq_self.mpr fun x hx => by simpa using hlater x hx, List.nil_append]

/-- Of an ascending list nothing comes after the last. -/
theorem Ascending.le_last (h : Ascending key entries) {last e : ε}
    (hlast : entries.getLast? = some last) (he : e ∈ entries) : key e ≤ key last := by
  obtain ⟨front, rfl⟩ := List.getLast?_eq_some_iff.mp hlast
  rcases List.mem_append.mp he with hbefore | hself
  · exact ((List.pairwise_append.mp h).2.2 e hbefore last (List.mem_singleton.mpr rfl)).le
  · rw [List.mem_singleton.mp hself]

/-- **Pages read to the end** give what stands for every entry once, in order, where
each page read from a cursor that one of them answered stands for a page of what is
left. -/
theorem followPages_images {δ : Type*} {page : Nat → Option γ → List δ × Option γ} (valid : γ → Prop)
    (image : ε → δ) (h : Ascending key entries)
    (hpage : ∀ k cursor, (∀ c, cursor = some c → valid c) → ∃ rows,
      (page k cursor).1 = rows.map image ∧
        PageOf key place (leftAfter key place entries cursor) (rows, (page k cursor).2) ∧
          ∀ c, (page k cursor).2 = some c → valid c) :
    ∃ fuel, followPages page fuel 0 none = some (entries.map image) := by
  have hreads : ∀ length k cursor, (∀ c, cursor = some c → valid c) →
      (leftAfter key place entries cursor).length ≤ length →
      ∃ fuel, followPages page fuel k cursor =
        some ((leftAfter key place entries cursor).map image) := by
    intro length
    induction length with
    | zero =>
        intro k cursor hvalid hlength
        have hempty : leftAfter key place entries cursor = [] := List.length_eq_zero_iff.mp (by omega)
        obtain ⟨rows, hrows, ⟨⟨n, hfirst⟩, -, hgoesOn⟩, -⟩ := hpage k cursor hvalid
        dsimp only at hfirst hgoesOn
        refine ⟨1, ?_⟩
        cases hnext : (page k cursor).2 with
        | none => simp [followPages, hnext, hrows, hfirst, hempty]
        | some c =>
            obtain ⟨e, hlast, -⟩ := hgoesOn c hnext
            rw [hfirst, hempty, List.take_nil] at hlast
            cases hlast
    | succ length ih =>
        intro k cursor hvalid hlength
        obtain ⟨rows, hrows, ⟨⟨n, hfirst⟩, hall, hgoesOn⟩, hnextValid⟩ := hpage k cursor hvalid
        dsimp only at hfirst hall hgoesOn
        cases hnext : (page k cursor).2 with
        | none => exact ⟨1, by simp [followPages, hnext, hrows, hall hnext]⟩
        | some c =>
            obtain ⟨e, hlast, hc⟩ := hgoesOn c hnext
            rw [hfirst] at hlast
            have hrest := h.leftAfter_last _ rfl hlast hc
            have hsome : (leftAfter key place entries cursor).take n ≠ [] := fun hnil => by
              rw [hnil] at hlast
              cases hlast
            have hlength' : (leftAfter key place entries (some c)).length ≤ length := by
              rw [hrest, List.length_drop]
              have := List.length_pos_iff.mpr hsome
              rw [List.length_take] at this
              omega
            obtain ⟨fuel, hfuel⟩ := ih (k + 1) (some c)
              (fun c' hc' => Option.some.inj hc' ▸ hnextValid c hnext) hlength'
            refine ⟨fuel + 1, ?_⟩
            rw [followPages, hnext]
            dsimp only
            rw [hfuel, hrows, hfirst, hrest, Option.map_some, ← List.map_append,
              List.take_append_drop]
  exact hreads entries.length 0 none (fun c hc => by cases hc) (Nat.le_refl _)

/-- Pages read to the end, where every page is one of what is left. -/
theorem followPages_all {page : Nat → Option γ → List ε × Option γ}
    (h : Ascending key entries)
    (hpage : ∀ k cursor, PageOf key place (leftAfter key place entries cursor) (page k cursor)) :
    ∃ fuel, followPages page fuel 0 none = some entries := by
  obtain ⟨fuel, hfuel⟩ := followPages_images (fun _ => True) id h fun k cursor _ =>
    ⟨(page k cursor).1, (List.map_id _).symm, hpage k cursor, fun _ _ => trivial⟩
  exact ⟨fuel, by rw [hfuel, List.map_id]⟩

end Base
