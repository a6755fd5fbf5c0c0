import Chratos.Lib.Batch
import Chratos.Lib.Codec
import Mathlib.Data.List.Lex
import Mathlib.Order.Lattice

/-!
# KeyStore — a store that is read in the order of its keys

Rows are kept in ascending order of their keys, which are strings of bytes. A reader seeks a key,
which puts it on the first row that is not below, and walks on while a test holds. Several tables
share a store: each has a tag, which its keys begin with.
-/

namespace KeyStore

open Codec List Function

/-! ## Keys

Keys made of fields of fixed length are compared field by field, and a key between two keys of one front
has it too (`Slice.append_lt_iff`, `Slice.front_of_between`).
-/

structure Slice where
  bytes : List UInt8
  deriving DecidableEq, Repr

namespace Slice

/-- The bytes as numbers, for the order of lists of numbers. -/
def digits (s : Slice) : List Nat := s.bytes.map UInt8.toNat

theorem digits_injective : Function.Injective digits := by
  intro a b h
  have hbytes : a.bytes = b.bytes := map_injective_iff.mpr (fun _ _ => UInt8.toNat_inj.mp) h
  exact congrArg mk hbytes

instance : LinearOrder Slice := LinearOrder.lift' digits digits_injective

variable {a b : Slice} {as bs xs ys : List UInt8}

theorem lt_iff : a < b ↔ a.bytes < b.bytes := by
  show a.bytes.map UInt8.toNat < b.bytes.map UInt8.toNat ↔ a.bytes < b.bytes
  generalize a.bytes = as
  generalize b.bytes = bs
  induction as generalizing bs with
  | nil => cases bs <;> simp
  | cons a as ih =>
    cases bs with
    | nil => simp
    | cons b bs =>
      rw [map_cons, map_cons, cons_lt_cons_iff, cons_lt_cons_iff, ih,
        ← UInt8.lt_iff_toNat_lt, UInt8.toNat_inj]

theorem le_iff : a ≤ b ↔ ¬ b.bytes < a.bytes := by
  rw [← lt_iff, not_lt]

theorem cons_lt_iff {a b : UInt8} :
    (⟨a :: as⟩ : Slice) < ⟨b :: bs⟩ ↔ a < b ∨ a = b ∧ (⟨as⟩ : Slice) < ⟨bs⟩ := by
  rw [lt_iff, lt_iff, cons_lt_cons_iff]

theorem append_lt_iff (hlen : as.length = bs.length) :
    (⟨as ++ xs⟩ : Slice) < ⟨bs ++ ys⟩ ↔ as < bs ∨ as = bs ∧ (⟨xs⟩ : Slice) < ⟨ys⟩ := by
  rw [lt_iff, lt_iff]
  exact append_lt_append_iff hlen

theorem append_lt_self_iff : (⟨as ++ xs⟩ : Slice) < ⟨as ++ ys⟩ ↔ (⟨xs⟩ : Slice) < ⟨ys⟩ := by
  rw [append_lt_iff rfl]
  simp

theorem append_le_self_iff : (⟨as ++ xs⟩ : Slice) ≤ ⟨as ++ ys⟩ ↔ (⟨xs⟩ : Slice) ≤ ⟨ys⟩ := by
  rw [← not_lt, append_lt_self_iff, not_lt]

theorem nil_le (s : Slice) : (⟨[]⟩ : Slice) ≤ s := by
  rw [le_iff]
  exact not_lt_nil _

theorem le_append (as xs : List UInt8) : (⟨as⟩ : Slice) ≤ ⟨as ++ xs⟩ := by
  have h := @append_le_self_iff as [] xs
  rw [append_nil] at h
  exact h.mpr (nil_le _)

/-- What lies between a front and a key with this front has it. -/
theorem front_of_between {p t : List UInt8} {s : Slice} (hle : ⟨p⟩ ≤ s) (hlt : s < ⟨p ++ t⟩) :
    p <+: s.bytes := by
  obtain ⟨bytes⟩ := s
  induction p generalizing bytes with
  | nil => exact List.nil_prefix
  | cons a p ih =>
    cases bytes with
    | nil =>
      rw [le_iff] at hle
      exact absurd (nil_lt_cons a p) hle
    | cons b bytes =>
      rw [cons_append, cons_lt_iff] at hlt
      rw [← not_lt, cons_lt_iff, not_or, not_and, not_lt] at hle
      -- a lower byte would put it below, a higher one beyond
      rcases hlt with hlt | ⟨rfl, hlt⟩
      · exact absurd hlt hle.1
      · exact cons_prefix_cons.mpr ⟨rfl, ih bytes (hle.2 rfl) hlt⟩

end Slice

/-! ## Rows

What a write leaves (`Store.mem_put`, `Store.mem_erase`).
-/

/-- In ascending rows, those from a key on are the ones at or above it. -/
theorem dropWhile_eq_filter {ρ κ : Type} [LinearOrder κ] {keyOf : ρ → κ} {rows : List ρ}
    (hsorted : rows.Pairwise fun a b => keyOf a ≤ keyOf b) (key : κ) :
    (rows.dropWhile fun row => keyOf row < key) = rows.filter fun row => key ≤ keyOf row := by
  induction rows with
  | nil => rfl
  | cons row rest ih =>
    rw [pairwise_cons] at hsorted
    by_cases hrow : keyOf row < key
    · rw [dropWhile_cons_of_pos (by simpa using hrow), ih hsorted.2,
        filter_cons_of_neg (by simpa using hrow)]
    · -- from here on all rows are at or above the key
      rw [dropWhile_cons_of_neg (by simpa using hrow), filter_eq_self.mpr]
      rw [not_lt] at hrow
      exact forall_mem_cons.mpr ⟨decide_eq_true hrow, fun other hother =>
        decide_eq_true (hrow.trans (hsorted.1 other hother))⟩

/-- A store, with its rows in the order of the keys. -/
structure Store (ω : Type) where
  rows : List (Slice × ω)
  sorted : rows.Pairwise fun a b => a.1 < b.1

namespace Store

variable {ω : Type}

def empty : Store ω := ⟨[], List.Pairwise.nil⟩

/-- A row is written in its place, where it replaces the row of the same key. -/
def put (s : Store ω) (key : Slice) (value : ω) : Store ω where
  rows := s.rows.filter (fun row => row.1 < key) ++ (key, value) :: s.rows.filter fun row => key < row.1
  sorted := by
    rw [pairwise_append, pairwise_cons]
    refine ⟨s.sorted.filter _, ⟨fun row hrow => ?_, s.sorted.filter _⟩, fun below hbelow row hrow => ?_⟩
    · exact of_decide_eq_true (mem_filter.mp hrow).2
    · have hlt : below.1 < key := of_decide_eq_true (mem_filter.mp hbelow).2
      rcases mem_cons.mp hrow with rfl | hrow
      · exact hlt
      · exact hlt.trans (of_decide_eq_true (mem_filter.mp hrow).2)

def erase (s : Store ω) (key : Slice) : Store ω where
  rows := s.rows.filter fun row => row.1 ≠ key
  sorted := s.sorted.filter _

/-- The rows an iterator goes through from a key on. -/
def seek (s : Store ω) (key : Slice) : List (Slice × ω) := s.rows.dropWhile fun row => row.1 < key

variable {s : Store ω} {key : Slice} {row : Slice × ω}

theorem mem_put {value : ω} :
    row ∈ (s.put key value).rows ↔ row = (key, value) ∨ row ∈ s.rows ∧ row.1 ≠ key := by
  unfold put
  rw [mem_append, mem_cons, mem_filter, mem_filter, decide_eq_true_eq, decide_eq_true_eq,
    ne_iff_lt_or_gt]
  tauto

theorem mem_erase : row ∈ (s.erase key).rows ↔ row ∈ s.rows ∧ row.1 ≠ key := by
  unfold erase
  rw [mem_filter, decide_eq_true_eq]

theorem seek_eq_filter (s : Store ω) (key : Slice) :
    s.seek key = s.rows.filter fun row => key ≤ row.1 :=
  dropWhile_eq_filter (s.sorted.imp le_of_lt) key

end Store

/-! ## Walks -/

/-- A walk over rows of which those asked for come first. -/
theorem takeWhile_eq_filter_iff {ρ : Type} {rows : List ρ} {asked test : ρ → Bool}
    (hfirst : rows.Pairwise fun a b => asked b = true → asked a = true)
    (htest : ∀ row ∈ rows, asked row = true → test row = true) :
    rows.takeWhile test = rows.filter asked ↔
      ∀ row, rows.find? (fun row => !asked row) = some row → test row = false := by
  induction rows with
  | nil => simp
  | cons row rest ih =>
    rw [pairwise_cons] at hfirst
    cases hasked : asked row with
    | true =>
      have hpass := htest row mem_cons_self hasked
      rw [takeWhile_cons_of_pos hpass, filter_cons_of_pos hasked,
        find?_cons_of_neg (by rw [hasked]; decide), List.cons.injEq]
      rw [← ih hfirst.2 (forall_mem_cons.mp htest).2]
      simp
    | false =>
      -- nothing behind is asked for either
      have hnone : (row :: rest).filter asked = [] := by
        rw [← Bool.not_eq_true] at hasked
        exact filter_eq_nil_iff.mpr (forall_mem_cons.mpr
          ⟨hasked, fun other hother hask => hasked (hfirst.1 other hother hask)⟩)
      rw [hnone, find?_cons_of_pos (by rw [hasked]; rfl)]
      cases hpass : test row with
      | true => simp [hpass]
      | false => simp [hpass]

/-! ## Tables -/

/-- A table of a store: the tag of its keys, how a key is written and read, and its values among
those of the store. -/
structure Table (κ υ ω : Type) where
  tag : UInt8
  serialize : κ → List UInt8
  unserialize : Reader κ
  value : υ → ω
  getValue : ω → Option υ

namespace Table

variable {κ υ ω : Type} (T : Table κ υ ω)

def slice (key : κ) : Slice := ⟨T.tag :: T.serialize key⟩

/-- The tag and the key that the bytes of a row begin with. -/
def getKey (s : Slice) : Option (UInt8 × κ) :=
  (do
    let tag ← readByte
    let key ← T.unserialize
    pure (tag, key) : Reader (UInt8 × κ)) s.bytes |>.map Prod.fst

/-- The loop of a query: up to the first row that is of another table, or fails the test. A value that
cannot be read is an error. -/
def collect (test : κ → Bool) : List (Slice × ω) → Option (List (κ × υ))
  | [] => some []
  | row :: rest =>
    match T.getKey row.1 with
    | none => some []
    | some (tag, key) =>
      if tag == T.tag && test key then
        match T.getValue row.2 with
        | none => none
        | some value => (collect test rest).map ((key, value) :: ·)
      else some []

/-- A row of the table. -/
def row? (row : Slice × ω) : Option (κ × υ) := do
  let (tag, key) ← T.getKey row.1
  let value ← T.getValue row.2
  if tag = T.tag then some (key, value) else none

def rows (s : Store ω) : List (κ × υ) := s.rows.filterMap T.row?

/-- A write; a row that leaves nothing is erased. -/
def writeRow (entry : υ → Option υ) (s : Store ω) (row : κ × υ) : Store ω :=
  match entry row.2 with
  | some value => s.put (T.slice row.1) (T.value value)
  | none => s.erase (T.slice row.1)

def writeBatch (entry : υ → Option υ) (s : Store ω) (rows : List (κ × υ)) : Store ω :=
  rows.foldl (T.writeRow entry) s

/-- The rows of the store with the tag of the table were written as rows of the table. -/
def Holds (fits : κ → Prop) (s : Store ω) : Prop :=
  ∀ row ∈ s.rows, row.1.bytes.head? = some T.tag → ∃ key value, fits key ∧
    row = (T.slice key, T.value value)

/-- What is written is read back. -/
structure Lawful (fits : κ → Prop) : Prop where
  reads : ∀ key, fits key → Reads T.unserialize (T.serialize key) key
  getValue_value : ∀ value, T.getValue (T.value value) = some value

variable {T} {fits : κ → Prop} {s : Store ω} {key : κ} {table : κ → Option υ} (hT : T.Lawful fits)

include hT

theorem getKey_slice (hkey : fits key) : T.getKey (T.slice key) = some (T.tag, key) := by
  have hread : Reads (do
      let tag ← readByte
      let key ← T.unserialize
      pure (tag, key)) ([T.tag] ++ T.serialize key) (T.tag, key) :=
    (reads_readByte T.tag).bind ((hT.reads key hkey).map fun key => (T.tag, key))
  have h := hread []
  rw [append_nil] at h
  unfold getKey slice
  rw [singleton_append] at h
  rw [h]
  rfl

theorem row?_slice (hkey : fits key) (value : υ) :
    T.row? (T.slice key, T.value value) = some (key, value) := by
  simp [row?, getKey_slice hT hkey, hT.getValue_value]

omit hT in
/-- The tag that is read is the first byte. -/
theorem head_of_getKey {row : Slice} {tag : UInt8} (h : T.getKey row = some (tag, key)) :
    row.bytes.head? = some tag := by
  obtain ⟨bytes⟩ := row
  cases bytes with
  | nil => cases h
  | cons b bytes =>
    simp only [getKey, Option.map_eq_some_iff] at h
    obtain ⟨⟨⟨tag', key'⟩, rest⟩, hread, heq⟩ := h
    cases heq
    simp only [readByte, bind, StateT.bind, Option.bind_some, Option.bind_eq_some_iff] at hread
    obtain ⟨_, -, hread⟩ := hread
    cases hread
    rfl

omit hT in
theorem head_of_row? {row : Slice × ω} {entry : κ × υ} (h : T.row? row = some entry) :
    row.1.bytes.head? = some T.tag := by
  unfold row? at h
  simp only [Option.bind_eq_bind, Option.bind_eq_some_iff] at h
  obtain ⟨⟨tag, key⟩, hkey, value, -, h⟩ := h
  split at h
  · next htag =>
    rw [← htag]
    exact head_of_getKey hkey
  · cases h

/-- The rows of the table, by the bytes. -/
theorem mem_rows_iff (hs : T.Holds fits s) {value : υ} :
    (key, value) ∈ T.rows s ↔ fits key ∧ (T.slice key, T.value value) ∈ s.rows := by
  unfold rows
  rw [mem_filterMap]
  constructor
  · rintro ⟨row, hrow, hentry⟩
    obtain ⟨key', value', hfits, rfl⟩ := hs row hrow (head_of_row? hentry)
    rw [row?_slice hT hfits] at hentry
    cases hentry
    exact ⟨hfits, hrow⟩
  · rintro ⟨hfits, hrow⟩
    exact ⟨_, hrow, row?_slice hT hfits value⟩

/-- The rows of the table are in the order of their keys. -/
theorem pairwise_rows (hs : T.Holds fits s) :
    (T.rows s).Pairwise fun a b => T.slice a.1 < T.slice b.1 := by
  unfold rows
  rw [pairwise_filterMap]
  refine s.sorted.imp_of_mem ?_
  intro a b ha hb hlt entry hentry entry' hentry'
  obtain ⟨key, value, hfits, rfl⟩ := hs a ha (head_of_row? hentry)
  obtain ⟨key', value', hfits', rfl⟩ := hs b hb (head_of_row? hentry')
  rw [row?_slice hT hfits] at hentry
  rw [row?_slice hT hfits'] at hentry'
  cases hentry
  cases hentry'
  exact hlt

/-! ## Writes to a table -/

/-- The store has the rows of a partial function. -/
def Refines (T : Table κ υ ω) (fits : κ → Prop) (s : Store ω) (table : κ → Option υ) : Prop :=
  ∀ key value, fits key → ((T.slice key, T.value value) ∈ s.rows ↔ table key = some value)

theorem slice_inj {a b : κ} (ha : fits a) (hb : fits b) : T.slice a = T.slice b ↔ a = b := by
  refine ⟨fun h => ?_, congrArg _⟩
  have hread := getKey_slice hT ha
  rw [h, getKey_slice hT hb] at hread
  cases hread
  rfl

theorem value_inj {v w : υ} : T.value v = T.value w ↔ v = w := by
  refine ⟨fun h => ?_, congrArg _⟩
  have hv := hT.getValue_value v
  rw [h, hT.getValue_value] at hv
  exact (Option.some.inj hv).symm

omit hT in
/-- A row put with the tag of the table has to be one of its rows. -/
theorem holds_put {key : Slice} {value : ω} (hrow : key.bytes.head? = some T.tag →
      ∃ k v, fits k ∧ (key, value) = (T.slice k, T.value v)) (hs : T.Holds fits s) :
    T.Holds fits (s.put key value) := by
  intro row hmem hhead
  rcases Store.mem_put.mp hmem with rfl | ⟨hmem, -⟩
  · exact hrow hhead
  · exact hs row hmem hhead

omit hT in
theorem holds_erase (key : Slice) (hs : T.Holds fits s) : T.Holds fits (s.erase key) :=
  fun row hrow => hs row (Store.mem_erase.mp hrow).1

omit hT in
/-- A batch of any table. -/
theorem holds_writeBatch {κ' υ' : Type} {T' : Table κ' υ' ω} (entry : υ' → Option υ')
    {rows : List (κ' × υ')}
    (hrows : ∀ row ∈ rows, ∀ value, (T'.slice row.1).bytes.head? = some T.tag →
      ∃ k v, fits k ∧ (T'.slice row.1, T'.value value) = (T.slice k, T.value v))
    (hs : T.Holds fits s) : T.Holds fits (T'.writeBatch entry s rows) := by
  induction rows generalizing s with
  | nil => exact hs
  | cons row rows ih =>
    obtain ⟨hrow, hrows⟩ := forall_mem_cons.mp hrows
    apply ih hrows
    unfold writeRow
    split
    · exact holds_put (hrow _) hs
    · exact holds_erase _ hs

theorem refines_put [DecidableEq κ] (hkey : fits key) (value : υ) (hs : T.Refines fits s table) :
    T.Refines fits (s.put (T.slice key) (T.value value)) (Function.update table key (some value)) := by
  intro key' value' hkey'
  rw [Store.mem_put, Prod.mk.injEq, slice_inj hT hkey' hkey, value_inj hT, hs key' value' hkey']
  by_cases heq : key' = key
  · rw [heq, update_self]
    simp [eq_comm]
  · rw [update_of_ne heq]
    simp [heq, slice_inj hT hkey' hkey]

theorem refines_erase [DecidableEq κ] (hkey : fits key) (hs : T.Refines fits s table) :
    T.Refines fits (s.erase (T.slice key)) (Function.update table key none) := by
  intro key' value' hkey'
  rw [Store.mem_erase, hs key' value' hkey']
  by_cases heq : key' = key
  · rw [heq, update_self]
    simp
  · rw [update_of_ne heq]
    simp [slice_inj hT hkey' hkey, heq]

/-- A batch on the bytes is the batch on the partial function. -/
theorem refines_writeBatch [DecidableEq κ] (entry : υ → Option υ)
    {rows : List (κ × υ)} (hrows : ∀ row ∈ rows, fits row.1) (hs : T.Refines fits s table) :
    T.Refines fits (T.writeBatch entry s rows) (Batch.apply entry table rows) := by
  induction rows generalizing s table with
  | nil => exact hs
  | cons row rows ih =>
    obtain ⟨hrow, hrows⟩ := forall_mem_cons.mp hrows
    apply ih hrows
    show T.Refines fits (T.writeRow entry s row) (update table row.1 (entry row.2))
    unfold writeRow
    split
    · next value hentry =>
      rw [hentry]
      exact refines_put hT hrow value hs
    · next hentry =>
      rw [hentry]
      exact refines_erase hT hrow hs

omit hT in
/-- A batch of a table with another tag leaves the rows of this one alone. -/
theorem refines_writeBatch_other {κ' υ' : Type} {T' : Table κ' υ' ω} (htag : T.tag ≠ T'.tag)
    (entry : υ' → Option υ') (rows : List (κ' × υ')) (hs : T.Refines fits s table) :
    T.Refines fits (T'.writeBatch entry s rows) table := by
  induction rows generalizing s with
  | nil => exact hs
  | cons row rows ih =>
    apply ih
    intro key value hkey
    have hne : T.slice key ≠ T'.slice row.1 := fun h =>
      htag (cons_eq_cons.mp (congrArg Slice.bytes h)).1
    unfold writeRow
    split
    · rw [Store.mem_put, Prod.mk.injEq]
      simp [hne, hs key value hkey]
    · rw [Store.mem_erase]
      simp [hne, hs key value hkey]

/-! ## Reading a table

A walk from a key of a table sees the rows of the table only (`Table.collect_seek`).
-/

omit hT in
/-- Above the tag, no row of the table lies behind one of another. -/
theorem head_of_lt {a b : Slice} (hle : ⟨[T.tag]⟩ ≤ a) (hlt : a < b) (hb : b.bytes.head? = some T.tag) :
    a.bytes.head? = some T.tag := by
  obtain ⟨bytes⟩ := b
  cases bytes with
  | nil => cases hb
  | cons tag bytes =>
    obtain rfl : tag = T.tag := Option.some.inj hb
    obtain ⟨rest, hrest⟩ := Slice.front_of_between (p := [T.tag]) (t := bytes) hle hlt
    rw [← hrest]
    rfl

/-- The loop over rows at or above the tag: it goes through the rows of the table. -/
theorem collect_eq (test : κ → Bool) {rows : List (Slice × ω)}
    (hsorted : rows.Pairwise fun a b => a.1 < b.1) (hfrom : ∀ row ∈ rows, ⟨[T.tag]⟩ ≤ row.1)
    (hholds : ∀ row ∈ rows, row.1.bytes.head? = some T.tag →
      ∃ key value, fits key ∧ row = (T.slice key, T.value value)) :
    T.collect test rows = some ((rows.filterMap T.row?).takeWhile fun row => test row.1) := by
  induction rows with
  | nil => rfl
  | cons row rest ih =>
    rw [pairwise_cons] at hsorted
    by_cases hhead : row.1.bytes.head? = some T.tag
    · obtain ⟨key, value, hfits, rfl⟩ := hholds row mem_cons_self hhead
      have ih := ih hsorted.2 (forall_mem_cons.mp hfrom).2 (forall_mem_cons.mp hholds).2
      unfold collect
      rw [filterMap_cons_some (row?_slice hT hfits value), getKey_slice hT hfits]
      cases hpass : test key with
      | true => simp [hpass, hT.getValue_value, ih]
      | false => simp [hpass]
    · -- a row of another table ends the loop, and no row of this one follows
      have hnone : (row :: rest).filterMap T.row? = [] := by
        rw [filterMap_eq_nil_iff]
        intro other hother
        by_contra hentry
        obtain ⟨entry, hentry⟩ := Option.ne_none_iff_exists'.mp hentry
        have hother' := head_of_row? hentry
        rcases mem_cons.mp hother with rfl | hother
        · exact hhead hother'
        · exact hhead (head_of_lt (hfrom row mem_cons_self) (hsorted.1 other hother) hother')
      rw [hnone]
      unfold collect
      cases hkey : T.getKey row.1 with
      | none => rfl
      | some read =>
        have htag : read.1 ≠ T.tag := fun htag => hhead (htag ▸ head_of_getKey hkey)
        simp [htag]

theorem collect_seek (hs : T.Holds fits s) (test : κ → Bool) {start : Slice}
    (hstart : ⟨[T.tag]⟩ ≤ start) : T.collect test (s.seek start) =
      some (((T.rows s).filter fun row => start ≤ T.slice row.1).takeWhile fun row => test row.1) := by
  rw [Store.seek_eq_filter, collect_eq hT test (s.sorted.filter _)]
  · congr 2
    unfold rows
    rw [filterMap_filter, filter_filterMap]
    apply filterMap_congr
    intro row hrow
    cases hentry : T.row? row with
    | none => simp
    | some entry =>
      obtain ⟨key, value, hfits, rfl⟩ := hs row hrow (head_of_row? hentry)
      rw [row?_slice hT hfits] at hentry
      cases hentry
      by_cases hle : start ≤ T.slice key
      · simp [hle, Option.filter]
      · simp [hle, Option.filter]
  · intro row hrow
    exact hstart.trans (of_decide_eq_true (mem_filter.mp hrow).2)
  · intro row hrow
    exact hs row (mem_filter.mp hrow).1

/-- The next row of the table, from a key on, that is not asked for. -/
def next? (T : Table κ υ ω) (s : Store ω) (start : Slice) (asked : κ → Bool) : Option (κ × υ) :=
  (T.rows s).find? fun row => start ≤ T.slice row.1 && !asked row.1

/-- **A query** by a walk is exact just when it stops at the next row. -/
theorem query_eq_filter_iff (hs : T.Holds fits s) {start : Slice}
    {asked test : κ → Bool} (hstart : ⟨[T.tag]⟩ ≤ start)
    (hfrom : ∀ key, fits key → asked key = true → start ≤ T.slice key)
    (hfirst : ∀ a b, fits a → fits b → start ≤ T.slice a → T.slice a < T.slice b → asked b = true →
      asked a = true) (htest : ∀ key, asked key = true → test key = true) :
    T.collect test (s.seek start) = some ((T.rows s).filter fun row => asked row.1) ↔
      ∀ row, T.next? s start asked = some row → test row.1 = false := by
  have hfits : ∀ row ∈ T.rows s, fits row.1 := fun row hrow => ((mem_rows_iff hT hs).mp hrow).1
  -- those asked for are among those from the key on
  have hasked : (T.rows s).filter (fun row => asked row.1) =
      ((T.rows s).filter fun row => start ≤ T.slice row.1).filter fun row => asked row.1 := by
    rw [filter_filter]
    apply filter_congr
    intro row hrow
    cases hask : asked row.1 with
    | false => rfl
    | true => simp [hfrom row.1 (hfits row hrow) hask]
  have hnext : T.next? s start asked =
      ((T.rows s).filter fun row => start ≤ T.slice row.1).find? fun row => !asked row.1 := by
    unfold next?
    rw [find?_filter]
    congr 1
    funext row
    rw [Bool.decide_and, Bool.decide_eq_true, Bool.decide_eq_true]
  rw [collect_seek hT hs test hstart, Option.some.injEq, hasked, hnext]
  refine @takeWhile_eq_filter_iff (κ × υ) _ (fun row => asked row.1) (fun row => test row.1) ?_ ?_
  · rw [pairwise_filter]
    refine (pairwise_rows hT hs).imp_of_mem ?_
    intro a b ha hb hlt hle _
    exact hfirst a.1 b.1 (hfits a ha) (hfits b hb) (of_decide_eq_true hle) hlt
  · intro row _
    exact htest row.1

end Table

end KeyStore
