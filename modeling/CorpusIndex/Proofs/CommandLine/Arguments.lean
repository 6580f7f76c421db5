import CorpusIndex.CommandLine.Arguments
import CorpusIndex.Proofs.Decimal
import CorpusIndex.Proofs.Except
import Mathlib.Data.List.Induction

/-!
# Arguments that are read

The arguments of a query are a sequence of items: an argument that is no flag, or a flag with its value. Reading
them takes item by item, whatever a value looks like, and so gives back what was written in any order of the
items.
-/
namespace CorpusIndex.QueryArguments

/-- An argument that is no flag, or a flag with its value. Numbers stand beside their texts. -/
inductive Item where
  | plain (text : String)
  | topK (text : String) (count : Nat)
  | cutoff (text : String) (bound : Float32)
  | required (word : String)
  | excluded (word : String)
  | expand (text : String) (count : Nat)
  | expandMode (mode : NeighbourMode)

namespace Item

def arguments : Item → List String
  | plain text => [text]
  | topK text _ => ["--top-k", text]
  | cutoff text _ => ["--cutoff", text]
  | required word => ["--require", word]
  | excluded word => ["--exclude", word]
  | expand text _ => ["--expand", text]
  | expandMode mode => ["--expand-mode", mode.name]

/-- A plain argument does not begin with two dashes, and the text of a number stands for it. -/
def Legible : Item → Prop
  | plain text => ¬ ['-', '-'] <+: text.toList
  | topK text count => Decimal.Whole text.toList count
  | cutoff text bound => ∃ r, Decimal.readReal text.toList = .ok r ∧ r.toFloat32 = bound
  | expand text count => Decimal.Whole text.toList count
  | _ => True

def plain? : Item → Option String
  | plain text => some text
  | _ => none

def topK? : Item → Option Nat
  | topK _ count => some count
  | _ => none

def cutoff? : Item → Option Float32
  | cutoff _ bound => some bound
  | _ => none

def required? : Item → Option String
  | required word => some word
  | _ => none

def excluded? : Item → Option String
  | excluded word => some word
  | _ => none

def expand? : Item → Option Nat
  | expand _ count => some count
  | _ => none

def expandMode? : Item → Option NeighbourMode
  | expandMode mode => some mode
  | _ => none

end Item

variable {a : QueryArguments} {items : List Item} {i : Item} {p q : Parsed} {args : List String} {flag value : String}

/-- A way to write arguments: the index before the query, the words of each list in order, and every other flag
at most once, in any order. Where no mode is written it is the next chunk. -/
structure Writes (items : List Item) (a : QueryArguments) : Prop where
  legible : ∀ i ∈ items, i.Legible
  plain : items.filterMap Item.plain? = [a.target, a.query]
  topK : items.filterMap Item.topK? = a.topK.toList
  cutoff : items.filterMap Item.cutoff? = a.cutoff.toList
  required : items.filterMap Item.required? = a.words.required
  excluded : items.filterMap Item.excluded? = a.words.excluded
  expand : items.filterMap Item.expand? = a.expand.toList
  expandMode : ∃ mode : Option NeighbourMode, items.filterMap Item.expandMode? = mode.toList ∧
    a.expandMode = mode.getD .next

/-! ### Item by item -/

/-- What has been read after one more item. -/
def Parsed.take (p : Parsed) : Item → Parsed
  | .plain text => { p with positional := p.positional ++ [text] }
  | .topK _ count => { p with topK := some count }
  | .cutoff _ bound => { p with cutoff := some bound }
  | .required word => { p with words := { p.words with required := p.words.required ++ [word] } }
  | .excluded word => { p with words := { p.words with excluded := p.words.excluded ++ [word] } }
  | .expand _ count => { p with expand := some count }
  | .expandMode mode => { p with expandMode := mode }

theorem parseFrom_flag (hflag : flags.contains flag = true) (hvalue : takeFlag p flag value = .ok q)
    (rest : List String) : parseFrom p (flag :: value :: rest) = parseFrom q rest := by
  rw [parseFrom, if_pos hflag, hvalue]
  rfl

theorem flags_dashed : ∀ flag ∈ flags, ['-', '-'] <+: flag.toList := by decide

theorem parseFrom_plain {text : String} (h : ¬ ['-', '-'] <+: text.toList) (rest : List String) :
    parseFrom p (text :: rest) = parseFrom (p.take (.plain text)) rest := by
  have hflag : ¬ flags.contains text = true := fun hmem =>
    h (flags_dashed text (List.contains_iff_mem.mp hmem))
  have hdashed : ¬ ['-', '-'].isPrefixOf text.toList = true := fun hpre => h (List.isPrefixOf_iff_prefix.mp hpre)
  rw [parseFrom.eq_def]
  dsimp only
  rw [if_neg hflag, if_neg hdashed]
  rfl

theorem wholeValue_eq_ok {n : Nat} : wholeValue flag value = .ok n ↔ Decimal.Whole value.toList n := by
  rw [wholeValue, mapError_eq_ok, Decimal.readWhole_eq_ok_iff]

theorem realValue_eq_ok {x : Float32} :
    realValue flag value = .ok x ↔ ∃ r, Decimal.readReal value.toList = .ok r ∧ r.toFloat32 = x := by
  have hmap : realValue flag value =
      (·.toFloat32) <$> (Decimal.readReal value.toList).mapError (CommandFailure.notReal flag) := rfl
  simp only [hmap, map_eq_ok, mapError_eq_ok]

theorem ofName_eq_ok {name : String} {mode : NeighbourMode} :
    NeighbourMode.ofName name = .ok mode ↔ name = mode.name := by
  constructor
  · intro h
    unfold NeighbourMode.ofName at h
    split at h
    next => cases h; rfl
    next => cases h; rfl
    next => cases h; rfl
    next => cases h
  · rintro rfl
    cases mode with
    | next => rfl
    | previous => rfl
    | both => rfl

/-- An item is read as it is meant, and what follows it is read next. -/
theorem parseFrom_item (h : i.Legible) (rest : List String) :
    parseFrom p (i.arguments ++ rest) = parseFrom (p.take i) rest := by
  cases i with
  | plain text => exact parseFrom_plain h rest
  | topK text count =>
      have hvalue : takeFlag p "--top-k" text = .ok (p.take (.topK text count)) :=
        bind_eq_ok.mpr ⟨count, wholeValue_eq_ok.mpr h, rfl⟩
      exact parseFrom_flag (by decide) hvalue rest
  | cutoff text bound =>
      have hvalue : takeFlag p "--cutoff" text = .ok (p.take (.cutoff text bound)) :=
        bind_eq_ok.mpr ⟨bound, realValue_eq_ok.mpr h, rfl⟩
      exact parseFrom_flag (by decide) hvalue rest
  | required word => exact parseFrom_flag (by decide) rfl rest
  | excluded word => exact parseFrom_flag (by decide) rfl rest
  | expand text count =>
      have hvalue : takeFlag p "--expand" text = .ok (p.take (.expand text count)) :=
        bind_eq_ok.mpr ⟨count, wholeValue_eq_ok.mpr h, rfl⟩
      exact parseFrom_flag (by decide) hvalue rest
  | expandMode mode =>
      have hvalue : takeFlag p "--expand-mode" mode.name = .ok (p.take (.expandMode mode)) :=
        bind_eq_ok.mpr ⟨mode, mapError_eq_ok.mpr (ofName_eq_ok.mpr rfl), rfl⟩
      exact parseFrom_flag (by decide) hvalue rest

/-- A flag and a value that are taken are an item. -/
theorem exists_item_of_takeFlag (hflag : flag ∈ flags) (h : takeFlag p flag value = .ok q) :
    ∃ i : Item, i.Legible ∧ i.arguments = [flag, value] ∧ p.take i = q := by
  simp only [flags, List.mem_cons, List.not_mem_nil, or_false] at hflag
  rcases hflag with rfl | rfl | rfl | rfl | rfl | rfl
  · obtain ⟨count, hcount, h⟩ := bind_eq_ok.mp h
    exact ⟨.topK value count, wholeValue_eq_ok.mp hcount, rfl, pure_eq_ok.mp h⟩
  · obtain ⟨bound, hbound, h⟩ := bind_eq_ok.mp h
    exact ⟨.cutoff value bound, realValue_eq_ok.mp hbound, rfl, pure_eq_ok.mp h⟩
  · exact ⟨.required value, trivial, rfl, pure_eq_ok.mp h⟩
  · exact ⟨.excluded value, trivial, rfl, pure_eq_ok.mp h⟩
  · obtain ⟨count, hcount, h⟩ := bind_eq_ok.mp h
    exact ⟨.expand value count, wholeValue_eq_ok.mp hcount, rfl, pure_eq_ok.mp h⟩
  · obtain ⟨mode, hmode, hq⟩ := bind_eq_ok.mp h
    obtain rfl := ofName_eq_ok.mp (mapError_eq_ok.mp hmode)
    exact ⟨.expandMode mode, trivial, rfl, pure_eq_ok.mp hq⟩

/-- Arguments are read exactly when they are legible items, and what is read is what the items say in turn. -/
theorem parseFrom_eq_ok_iff : parseFrom p args = .ok q ↔
    ∃ items : List Item, (∀ i ∈ items, i.Legible) ∧ items.flatMap Item.arguments = args ∧
      items.foldl Parsed.take p = q := by
  constructor
  · intro h
    fun_induction parseFrom p args with
    | case1 p =>
        cases h
        exact ⟨[], by simp, rfl, rfl⟩
    | case2 => cases h
    | case3 p flag hflag value rest ih =>
        obtain ⟨p', hvalue, h⟩ := bind_eq_ok.mp h
        obtain ⟨i, hi, harguments, rfl⟩ := exists_item_of_takeFlag (List.contains_iff_mem.mp hflag) hvalue
        obtain ⟨items, hitems, rfl, rfl⟩ := ih _ h
        exact ⟨i :: items, List.forall_mem_cons.mpr ⟨hi, hitems⟩, by simp [harguments], rfl⟩
    | case4 => cases h
    | case5 p text rest hflag hdashed ih =>
        obtain ⟨items, hitems, rfl, rfl⟩ := ih h
        have hplain : (Item.plain text).Legible := fun hpre => hdashed (List.isPrefixOf_iff_prefix.mpr hpre)
        exact ⟨.plain text :: items, List.forall_mem_cons.mpr ⟨hplain, hitems⟩, rfl, rfl⟩
  · rintro ⟨items, hitems, rfl, rfl⟩
    induction items generalizing p with
    | nil => rfl
    | cons i items ih =>
        rw [List.flatMap_cons, parseFrom_item (hitems i List.mem_cons_self),
          ih fun j hj => hitems j (List.mem_cons_of_mem _ hj), List.foldl_cons]

/-! ### All items -/

/-- Of a flag that is written more than once, the last value counts. -/
theorem foldl_take (items : List Item) : items.foldl Parsed.take {} =
    { positional := items.filterMap Item.plain?
      topK := (items.filterMap Item.topK?).getLast?
      cutoff := (items.filterMap Item.cutoff?).getLast?
      words := { required := items.filterMap Item.required?, excluded := items.filterMap Item.excluded? }
      expand := (items.filterMap Item.expand?).getLast?
      expandMode := (items.filterMap Item.expandMode?).getLast?.getD .next } := by
  induction items using List.reverseRecOn with
  | nil => rfl
  | append_singleton items i ih =>
      rw [List.foldl_append, ih]
      cases i <;> simp [Parsed.take, Item.plain?, Item.topK?, Item.cutoff?, Item.required?, Item.excluded?,
        Item.expand?, Item.expandMode?, List.filterMap_append]

/-- What legible items say: the first two plain arguments, all words of each list, and of every other flag the
last value. -/
structure Says (items : List Item) (a : QueryArguments) : Prop where
  legible : ∀ i ∈ items, i.Legible
  plain : [a.target, a.query] <+: items.filterMap Item.plain?
  topK : (items.filterMap Item.topK?).getLast? = a.topK
  cutoff : (items.filterMap Item.cutoff?).getLast? = a.cutoff
  required : items.filterMap Item.required? = a.words.required
  excluded : items.filterMap Item.excluded? = a.words.excluded
  expand : (items.filterMap Item.expand?).getLast? = a.expand
  expandMode : (items.filterMap Item.expandMode?).getLast?.getD .next = a.expandMode

theorem Writes.says (h : Writes items a) : Says items a where
  legible := h.legible
  plain := h.plain ▸ List.prefix_rfl
  topK := by rw [h.topK]; cases a.topK <;> rfl
  cutoff := by rw [h.cutoff]; cases a.cutoff <;> rfl
  required := h.required
  excluded := h.excluded
  expand := by rw [h.expand]; cases a.expand <;> rfl
  expandMode := by
    obtain ⟨mode, hmode, heq⟩ := h.expandMode
    rw [hmode, heq]
    cases mode <;> rfl

/-- Arguments are read exactly when they are items that say something, and it is read. -/
theorem parse_eq_ok_iff : parse args = .ok a ↔ ∃ items, items.flatMap Item.arguments = args ∧ Says items a := by
  constructor
  · intro h
    obtain ⟨p, hp, h⟩ := bind_eq_ok.mp h
    obtain ⟨items, hitems, rfl, rfl⟩ := parseFrom_eq_ok_iff.mp hp
    refine ⟨items, rfl, ?_⟩
    rw [foldl_take] at h
    dsimp only at h
    split at h
    next target query more hplain =>
      obtain rfl := pure_eq_ok.mp h
      exact ⟨hitems, hplain ▸ ⟨more, rfl⟩, rfl, rfl, rfl, rfl, rfl, rfl⟩
    next => cases h
  · rintro ⟨items, rfl, h⟩
    refine bind_eq_ok.mpr ⟨_, parseFrom_eq_ok_iff.mpr ⟨items, h.legible, rfl, foldl_take items⟩, ?_⟩
    obtain ⟨more, hplain⟩ := h.plain
    dsimp only
    rw [← hplain, h.topK, h.cutoff, h.required, h.excluded, h.expand, h.expandMode]
    rfl

/-- Written in any order of their items, arguments are read back. -/
theorem parse_written (h : Writes items a) : parse (items.flatMap Item.arguments) = .ok a :=
  parse_eq_ok_iff.mpr ⟨items, rfl, h.says⟩

/-- The query before the flags of a list and after a value that looks like a flag. -/
theorem parse_written_interleaved :
    let quarter := (Decimal.Reading.decimal false 25 (-2)).toFloat32
    let items := [.required "--top-k", .plain "vector", .topK (toString 4) 4, .expandMode .both,
      .plain "rain barrels", .cutoff "0.25" quarter, .excluded "snow", .expand "+01" 1, .required "barrel"]
    let a : QueryArguments :=
      { target := "vector", query := "rain barrels", topK := some 4, cutoff := some quarter,
        words := { required := ["--top-k", "barrel"], excluded := ["snow"] }, expand := some 1, expandMode := .both }
    Writes items a ∧ items.flatMap Item.arguments =
        ["--require", "--top-k", "vector", "--top-k", "4", "--expand-mode", "both", "rain barrels", "--cutoff",
          "0.25", "--exclude", "snow", "--expand", "+01", "--require", "barrel"] ∧
      parse (items.flatMap Item.arguments) = .ok a := by
  intro quarter items a
  have hlegible : ∀ i ∈ items, i.Legible := by
    simp only [items, List.forall_mem_cons, List.not_mem_nil, false_implies, implies_true, and_true]
    have htarget : ¬ ['-', '-'] <+: "vector".toList := by decide
    have hquery : ¬ ['-', '-'] <+: "rain barrels".toList := by decide
    have hexpand : Decimal.Whole "+01".toList 1 :=
      .signed ⟨by decide, List.all_eq_true.mp (by decide), rfl, by decide⟩
    exact ⟨trivial, htarget, Decimal.whole_toString (by decide), trivial, hquery, ⟨_, by decide, rfl⟩, trivial, hexpand,
      trivial⟩
  have h : Writes items a := ⟨hlegible, rfl, rfl, rfl, rfl, rfl, rfl, some .both, rfl, rfl⟩
  exact ⟨h, rfl, parse_written h⟩

end CorpusIndex.QueryArguments
