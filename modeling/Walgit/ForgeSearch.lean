import Walgit.Credentials

/-!
# Searching the forge

`ForgeState::search` filters the items by the terms of a query, sorts what is left and cuts one
page out of it. The page is found by an offset, a product of 64-bit numbers.
-/
namespace Walgit

open Text

/-! The pages of a list. -/
namespace Paging

variable {α : Type}

/-- The page of the list after `k` full ones. -/
def page (size : ℕ) (l : List α) (k : ℕ) : List α := (l.drop (k * size)).take size

/-- The number of pages that hold something. -/
def count (size len : ℕ) : ℕ := (len + size - 1) / size

theorem flatMap_page (size : ℕ) (l : List α) (n : ℕ) :
    (List.range n).flatMap (page size l) = l.take (n * size) := by
  induction n with
  | zero => simp
  | succ n ih =>
    rw [List.range_succ, List.flatMap_append, ih, Nat.succ_mul, List.take_add]
    simp [page]

theorem page_eq_nil_iff {size : ℕ} (hsize : 0 < size) (l : List α) (k : ℕ) :
    page size l k = [] ↔ l.length ≤ k * size := by
  have hne : size ≠ 0 := by omega
  simp [page, List.take_eq_nil_iff, hne]

theorem length_le_count {size : ℕ} (hsize : 0 < size) (len : ℕ) : len ≤ count size len * size := by
  have hdiv := Nat.div_add_mod (len + size - 1) size
  have hmod := Nat.mod_lt (len + size - 1) hsize
  rw [count, Nat.mul_comm]
  omega

theorem lt_of_lt_count {size len k : ℕ} (hk : k < count size len) : k * size < len := by
  have hsize : 0 < size := by
    by_contra h
    simp [count, Nat.eq_zero_of_not_pos h] at hk
  have hle : (k + 1) * size ≤ len + size - 1 :=
    (Nat.le_div_iff_mul_le hsize).mp hk
  rw [Nat.succ_mul] at hle
  omega

/-- All pages together are the list. -/
theorem flatMap_count {size : ℕ} (hsize : 0 < size) (l : List α) :
    (List.range (count size l.length)).flatMap (page size l) = l := by
  rw [flatMap_page]
  exact List.take_of_length_le (length_le_count hsize l.length)

end Paging

/-- What a query asks for. -/
structure SearchQuery where
  state : Option ItemState
  kind : Option ItemKind
  author : Option String
  assignee : Option String
  labels : List String
  sort : String
  review : Option String
  merged : Option Bool
  draft : Option Bool
  words : List String
  deriving DecidableEq

/-- One page of a search, with the open and closed counts of the same query. -/
structure SearchPage where
  items : List Item
  openCount : ℕ
  closedCount : ℕ
  page : ℕ
  perPage : ℕ
  authors : SortedMap String Unit
  labels : SortedMap String Unit
  assignees : SortedMap String Unit
  deriving DecidableEq

def perPage : ℕ := 25

namespace SearchQuery

/-- The tokens so far, the current one and whether a quote is open. -/
def tokenStep (acc : List (List Char) × List Char × Bool) (c : Char) :
    List (List Char) × List Char × Bool :=
  let (out, cur, quoted) := acc
  if c = '"' then (out, cur, !quoted)
  else if isWhitespace c && !quoted then
    if cur.isEmpty then (out, cur, quoted) else (out ++ [cur], [], quoted)
  else (out, cur ++ [c], quoted)

/-- Tokens between blanks; double quotes group. -/
def tokens (q : String) : List String :=
  let (out, cur, _) := q.toList.foldl tokenStep ([], [], false)
  (if cur.isEmpty then out else out ++ [cur]).map String.ofList

section Parsing

-- Lowercasing reads the Unicode tables.
variable (lower : String → String)

def empty : SearchQuery :=
  ⟨none, none, none, none, [], "created-desc", none, none, none, []⟩

/-- Takes one token. A later term replaces an earlier one; labels and words add up. -/
def term (q : SearchQuery) (tok : String) : SearchQuery :=
  match (Auth.splitOnce ':' tok.toList).map fun (k, v) => (String.ofList k, String.ofList v) with
  | some ("is", "open") => { q with state := some .opened }
  | some ("is", "closed") => { q with state := some .closed }
  | some ("is", "merged") => { q with merged := some true }
  | some ("is", "draft") => { q with draft := some true }
  | some ("is", "unmerged") => { q with merged := some false }
  | some ("is", "issue") => { q with kind := some .issue }
  | some ("is", "pr") => { q with kind := some .pull }
  | some ("author", v) => { q with author := some v }
  | some ("assignee", v) => { q with assignee := some v }
  | some ("label", v) => { q with labels := q.labels ++ [v] }
  | some ("sort", v) => { q with sort := v }
  | some ("review", v) => { q with review := some (if v = "none" then "" else v) }
  | _ => { q with words := q.words ++ [lower tok] }

def parse (query : String) : SearchQuery := (tokens query).foldl (term lower) empty

/-- The terms of a query apart from its state. -/
def admits (q : SearchQuery) (i : Item) : Bool :=
  q.kind.all (fun k => i.kind = k) &&
  q.author.all (fun a => i.author = a) &&
  q.assignee.all (fun a => (i.assignees.find? a).isSome) &&
  q.labels.all (fun l => (i.labels.find? l).isSome) &&
  q.review.all (fun r => i.reviewDecision = r) &&
  q.merged.all (fun m => i.merged = m) &&
  q.draft.all (fun d => i.draft = d) &&
  q.words.all (fun w => contains w (lower i.title) || contains w (lower i.body))

end Parsing

/-- The order of the rows. -/
def Before (q : SearchQuery) (a b : Item) : Prop :=
  if q.sort = "created-asc" then a.number ≤ b.number
  else if q.sort = "updated-desc" then
    b.updatedAt < a.updatedAt ∨ b.updatedAt = a.updatedAt ∧ b.number ≤ a.number
  else if q.sort = "comments-desc" then
    b.comments < a.comments ∨ b.comments = a.comments ∧ b.number ≤ a.number
  else b.number ≤ a.number

instance (q : SearchQuery) (a b : Item) : Decidable (q.Before a b) := by
  unfold Before
  infer_instance

instance (q : SearchQuery) : Std.Total q.Before where
  total a b := by
    unfold Before
    split_ifs
    · exact Nat.le_total _ _
    · rcases lt_trichotomy a.updatedAt b.updatedAt with h | h | h
      · exact .inr (.inl h)
      · simp only [h, lt_irrefl, false_or, true_and]
        exact Nat.le_total _ _
      · exact .inl (.inl h)
    · omega
    · exact Nat.le_total _ _

instance (q : SearchQuery) : IsTrans Item q.Before where
  trans a b c := by
    unfold Before
    split_ifs
    · exact Nat.le_trans
    · rintro (hab | ⟨hab, hn⟩) (hbc | ⟨hbc, hm⟩)
      · exact .inl (hbc.trans hab)
      · exact .inl (hbc ▸ hab)
      · exact .inl (hab ▸ hbc)
      · exact .inr ⟨hbc.trans hab, hm.trans hn⟩
    · omega
    · exact fun hab hbc => hbc.trans hab

end SearchQuery

namespace ForgeState

variable (lower : String → String)

/-- The items that match the query without its state term. -/
def matching (st : ForgeState) (q : SearchQuery) : List Item :=
  st.items.values.filter (q.admits lower)

/-- The items that match the whole query. -/
def selected (st : ForgeState) (q : SearchQuery) : List Item :=
  (st.matching lower q).filter fun i => q.state.all fun s => i.state = s

/-- The search with its page size as a parameter. The product of the release build wraps. -/
def searchBy (size : ℕ) (st : ForgeState) (query : String) (page : ℕ) : SearchPage :=
  let q := SearchQuery.parse lower query
  let hits := st.matching lower q
  let openCount := hits.countP fun i => i.state = .opened
  let rows := (st.selected lower q).insertionSort q.Before
  let page := max page 1
  let ofKind := st.items.values.filter fun i => q.kind.all fun k => i.kind = k
  { items := (rows.drop ((page - 1) * size % 2 ^ 64)).take size
    openCount := openCount
    closedCount := hits.length - openCount
    page := page
    perPage := size
    authors := .setOf (ofKind.map Item.author)
    labels := .setOf (ofKind.flatMap (fun i => i.labels.keys) ++ st.labels.keys)
    assignees := .setOf (ofKind.flatMap fun i => i.assignees.keys) }

def search (st : ForgeState) (query : String) (page : ℕ) : SearchPage :=
  st.searchBy lower perPage query page

/-- The rows of a query in their order. -/
def sorted (st : ForgeState) (query : String) : List Item :=
  (st.selected lower (.parse lower query)).insertionSort (SearchQuery.parse lower query).Before

theorem items_searchBy (size : ℕ) (st : ForgeState) (query : String) (page : ℕ) :
    (st.searchBy lower size query page).items =
      ((st.sorted lower query).drop ((max page 1 - 1) * size % 2 ^ 64)).take size := rfl

theorem sorted_perm (st : ForgeState) (query : String) :
    (st.sorted lower query).Perm (st.selected lower (.parse lower query)) :=
  List.perm_insertionSort _ _

theorem sorted_pairwise (st : ForgeState) (query : String) :
    (st.sorted lower query).Pairwise (SearchQuery.parse lower query).Before :=
  List.pairwise_insertionSort _ _

theorem length_sorted_le (st : ForgeState) (query : String) :
    (st.sorted lower query).length ≤ st.items.entries.length := by
  calc (st.sorted lower query).length
      = (st.selected lower (.parse lower query)).length := (st.sorted_perm lower query).length_eq
    _ ≤ (st.matching lower (.parse lower query)).length := List.length_filter_le _ _
    _ ≤ st.items.values.length := List.length_filter_le _ _
    _ = st.items.entries.length := by simp [SortedMap.values]

theorem counts_searchBy (size : ℕ) (st : ForgeState) (query : String) (page : ℕ) :
    (st.searchBy lower size query page).openCount +
        (st.searchBy lower size query page).closedCount =
      (st.matching lower (.parse lower query)).length := by
  have hle := List.countP_le_length
    (p := fun i : Item => i.state = .opened) (l := st.matching lower (.parse lower query))
  simp only [searchBy]
  omega

/-- Where the offset does not wrap, a page of the search is a page of the sorted list. -/
theorem items_page {size : ℕ} (st : ForgeState) (query : String) {k : ℕ}
    (h : k * size < 2 ^ 64) :
    (st.searchBy lower size query (k + 1)).items = Paging.page size (st.sorted lower query) k := by
  have hmax : max (k + 1) 1 - 1 = k := by omega
  rw [items_searchBy, hmax, Nat.mod_eq_of_lt h, Paging.page]

theorem pages_sorted {size : ℕ} (hsize : 0 < size) {st : ForgeState} (query : String)
    (hst : st.items.entries.length < 2 ^ 64) :
    ((List.range (Paging.count size (st.sorted lower query).length)).flatMap fun k =>
      (st.searchBy lower size query (k + 1)).items) = st.sorted lower query := by
  calc _ = (List.range (Paging.count size (st.sorted lower query).length)).flatMap
        (Paging.page size (st.sorted lower query)) := by
        refine List.flatMap_congr fun k hk => ?_
        have hlt := Paging.lt_of_lt_count (List.mem_range.mp hk)
        have hlen := st.length_sorted_le lower query
        exact items_page lower st query (by omega)
    _ = st.sorted lower query := Paging.flatMap_count hsize _

/-- What the pages of a query promise to a client that asks for one of them. -/
structure Partitions (size : ℕ) (st : ForgeState) (query : String) (page : ℕ) : Prop where
  /-- The pages up to the last one are the matching items in order, each once. -/
  whole : ∃ rows : List Item,
    rows.Perm (st.selected lower (.parse lower query)) ∧
    rows.Pairwise (SearchQuery.parse lower query).Before ∧
    ((List.range (Paging.count size rows.length)).flatMap fun k =>
      (st.searchBy lower size query (k + 1)).items) = rows
  /-- A page past the end is empty. -/
  past : (st.selected lower (.parse lower query)).length ≤ (page - 1) * size →
    (st.searchBy lower size query page).items = []
  counts : (st.searchBy lower size query page).openCount +
      (st.searchBy lower size query page).closedCount =
    (st.matching lower (.parse lower query)).length

/-- The search keeps its promise unless the offset wraps to a place before the end. -/
theorem partitions_iff {size : ℕ} (hsize : 0 < size) {st : ForgeState}
    (hst : st.items.entries.length < 2 ^ 64) (query : String) (page : ℕ) :
    Partitions lower size st query page ↔
      (page - 1) * size < 2 ^ 64 ∨
        (st.selected lower (.parse lower query)).length ≤ (page - 1) * size % 2 ^ 64 := by
  have hlen := (st.sorted_perm lower query).length_eq
  have hfit := st.length_sorted_le lower query
  have hmax : max page 1 - 1 = page - 1 := by omega
  have hitems : (st.searchBy lower size query page).items = [] ↔
      (st.selected lower (.parse lower query)).length ≤ (page - 1) * size % 2 ^ 64 := by
    have hne : size ≠ 0 := by omega
    rw [items_searchBy, hmax, ← hlen]
    simp [List.take_eq_nil_iff, hne]
  constructor
  · intro h
    by_cases hend : (st.selected lower (.parse lower query)).length ≤ (page - 1) * size
    · exact .inr (hitems.mp (h.past hend))
    · exact .inl (by omega)
  · intro h
    refine ⟨⟨st.sorted lower query, st.sorted_perm lower query, st.sorted_pairwise lower query,
      pages_sorted lower hsize query hst⟩, fun hend => hitems.mpr ?_, st.counts_searchBy lower ..⟩
    rcases h with hwrap | hwrap
    · rwa [Nat.mod_eq_of_lt hwrap]
    · exact hwrap

/-- Two open issues. -/
def twoIssues : ForgeState :=
  { ForgeState.empty with
    items := .ofList ([1, 2].map fun n =>
      (n, Item.opened { (default : ForgeEvent) with number := n } "" default)) }

/-- The only page of the two issues. -/
theorem partitions_iff_twoIssues :
    Partitions toAsciiLowercase perPage twoIssues "is:open" 1 :=
  (partitions_iff toAsciiLowercase (by decide) (by decide) "is:open" 1).mpr (.inl (by decide))

/-- A page far past the end whose offset wraps to 1 shows the second row. -/
theorem partitions_wraps :
    ¬ Partitions toAsciiLowercase perPage twoIssues "is:open" 10330176681277348906 := by
  intro h
  have hlen : (twoIssues.selected toAsciiLowercase
      (.parse toAsciiLowercase "is:open")).length = 2 := by decide
  have hrow : (twoIssues.searchBy toAsciiLowercase perPage "is:open"
      10330176681277348906).items.length = 1 := by decide
  have hempty := h.past (by rw [hlen]; decide)
  rw [hempty] at hrow
  exact absurd hrow (by decide)

end ForgeState

end Walgit
