import AmlaSandbox.Text.Utf8
import Mathlib.Data.List.Nodup
import Mathlib.Data.List.Perm.Basic
import Mathlib.Logic.Function.Basic

/-!
# tr

`tr` reads bytes, maps or deletes them, and squeezes runs of equal bytes. It squeezes the bytes of
the first set, also where a second one is given, and it maps the bytes of a complement in the order
in which a hash set gives them.
-/

namespace AmlaSandbox.Commands

open Text

/-! ### Sets -/

/-- The byte that a backslash and this byte stand for. -/
def unescape (b : UInt8) : UInt8 :=
  if b = 'n'.toUInt8 then 10
  else if b = 't'.toUInt8 then 9
  else if b = 'r'.toUInt8 then 13
  else if b = '0'.toUInt8 then 0
  else if b = 'a'.toUInt8 then 7
  else if b = 'b'.toUInt8 then 8
  else if b = 'f'.toUInt8 then 12
  else if b = 'v'.toUInt8 then 11
  else b

/-- The bytes from one byte to another, upwards or downwards. -/
def byteRange (a b : UInt8) : List UInt8 :=
  if a ≤ b then (List.range' a.toNat (b.toNat - a.toNat + 1)).map UInt8.ofNat
  else ((List.range' b.toNat (a.toNat - b.toNat + 1)).map UInt8.ofNat).reverse

/-- Literal bytes, ranges and escapes. -/
def expandSet : List UInt8 → List UInt8
  | [] => []
  | [a] => [a]
  | [a, b] => if a = '\\'.toUInt8 then [unescape b] else [a, b]
  | a :: b :: c :: s =>
    if a = '\\'.toUInt8 then unescape b :: expandSet (c :: s)
    else if b = '-'.toUInt8 then byteRange a c ++ expandSet s
    else a :: expandSet (b :: c :: s)

example : expandSet (utf8 "a-d\\n-".toList) = [97, 98, 99, 100, 10, 45] := by decide +kernel

/-- The arguments of `tr`. -/
structure TrArgs where
  delete : Bool
  squeeze : Bool
  complement : Bool
  set1 : Text
  set2 : Option Text

namespace TrArgs

variable (args : TrArgs)

def bytes1 : List UInt8 := expandSet (utf8 args.set1)

def bytes2 : List UInt8 :=
  match args.set2 with
  | none => []
  | some set2 => expandSet (utf8 set2)

/-- The hash set `set1_chars`. -/
def inSet1 (b : UInt8) : Bool :=
  if args.complement then !args.bytes1.contains b else args.bytes1.contains b

/-- The bytes that are not in the first set, in increasing order. -/
def complementBytes : List UInt8 :=
  ((List.range 256).map UInt8.ofNat).filter (!args.bytes1.contains ·)

/-! ### The translation -/

/-- The byte at a position of the second set, which goes on with its last byte. -/
def target (i : ℕ) (source : UInt8) : UInt8 := args.bytes2[i]?.getD (args.bytes2.getLastD source)

/-- The table that maps bytes, one after the other, to those of the second set. -/
def transMap (set1Vec : List UInt8) : UInt8 → UInt8 :=
  set1Vec.zipIdx.foldl (fun m p => Function.update m p.1 (args.target p.2 p.1)) id

/-- The table of a run in which the hash set gives the bytes of the complement in this order. -/
def table (order : List UInt8) : UInt8 → UInt8 :=
  if !args.delete && args.bytes2 ≠ [] then
    args.transMap (if args.complement then order else args.bytes1)
  else id

/-! ### The output -/

/-- The last byte of the output, and the output. -/
def outputByte (state : Option UInt8 × List UInt8) (b : UInt8) : Option UInt8 × List UInt8 :=
  if args.squeeze && args.inSet1 b && state.1 = some b then state else (some b, state.2 ++ [b])

def processByte (order : List UInt8) (state : Option UInt8 × List UInt8) (b : UInt8) :
    Option UInt8 × List UInt8 :=
  if args.delete then if args.inSet1 b then state else args.outputByte state b
  else args.outputByte state (args.table order b)

/-- What `tr` prints for an input that is read in chunks. -/
def run (order : List UInt8) (chunks : List (List UInt8)) : List UInt8 :=
  (chunks.foldl (fun state chunk => chunk.foldl (args.processByte order) state) (none, [])).2

/-! ### The specification -/

/-- The last set that is given. -/
def inLastSet (b : UInt8) : Bool :=
  match args.set2 with
  | none => args.inSet1 b
  | some _ => args.bytes2.contains b

/-- The bytes of a run that are left where a byte of the set follows itself once only. -/
def squeezeRuns (inSet : UInt8 → Bool) : Option UInt8 → List UInt8 → List UInt8
  | _, [] => []
  | prev, b :: bs =>
    if inSet b && prev = some b then squeezeRuns inSet prev bs
    else b :: squeezeRuns inSet (some b) bs

/-- The bytes that a run passes on, in this order of the hash set. -/
def translate (order input : List UInt8) : List UInt8 :=
  if args.delete then input.filter (!args.inSet1 ·) else input.map (args.table order)

/-- The last position of a byte. -/
def lastPosition (b : UInt8) (set : List UInt8) : Option ℕ :=
  (set.zipIdx.filter (·.1 = b)).getLast?.map Prod.snd

/-- The byte at the same position of the second set, where a complement is in increasing order. -/
def mapped (b : UInt8) : UInt8 :=
  match lastPosition b (if args.complement then args.complementBytes else args.bytes1) with
  | some i => args.target i b
  | none => b

/-- Bytes deleted, or mapped position by position. -/
def translated (input : List UInt8) : List UInt8 :=
  if args.delete then input.filter (!args.inSet1 ·) else input.map args.mapped

/-- What `tr` should print: the last set that is given is squeezed. -/
def specified (input : List UInt8) : List UInt8 :=
  squeezeRuns (fun b => args.squeeze && args.inLastSet b) none (args.translated input)

/-- The first set is squeezed, even where a second one is given. -/
def firstSqueezed (input : List UInt8) : List UInt8 :=
  squeezeRuns (fun b => args.squeeze && args.inSet1 b) none (args.translated input)

/-- The second set has the same byte for all bytes of a complement. -/
def OrderFree : Prop :=
  args.complement = true → args.delete = false →
    ∀ i < args.complementBytes.length, ∀ b, args.target i b = args.target 0 b

variable {args} {order input : List UInt8} {b : UInt8}

/-! ### Runs -/

lemma foldl_processByte (input : List UInt8) (last : Option UInt8) (out : List UInt8) :
    (input.foldl (args.processByte order) (last, out)).2 =
      out ++ squeezeRuns (fun b => args.squeeze && args.inSet1 b) last
        (args.translate order input) := by
  have houtput (last : Option UInt8) (out bs : List UInt8) (b : UInt8) :
      (args.outputByte (last, out) b).2 ++ squeezeRuns (fun b => args.squeeze && args.inSet1 b)
        (args.outputByte (last, out) b).1 bs =
      out ++ squeezeRuns (fun b => args.squeeze && args.inSet1 b) last (b :: bs) := by
    rw [outputByte, squeezeRuns]
    split_ifs
    · rfl
    · simp
  induction input generalizing last out with
  | nil => cases hdelete : args.delete <;> simp [translate, hdelete, squeezeRuns]
  | cons b input ih =>
    rw [List.foldl_cons, ih, processByte]
    cases hdelete : args.delete with
    | false =>
      have htranslate : args.translate order (b :: input) =
          args.table order b :: args.translate order input := by
        simp [translate, hdelete]
      rw [if_neg (by simp), houtput, htranslate]
    | true =>
      rw [if_pos rfl]
      split_ifs with hb
      · simp [translate, hdelete, hb]
      · have htranslate : args.translate order (b :: input) =
            b :: args.translate order input := by
          simp [translate, hdelete, hb]
        rw [houtput, htranslate]

/-- The chunks make no difference, and runs of bytes of the first set are squeezed. -/
theorem run_eq (chunks : List (List UInt8)) :
    args.run order chunks = squeezeRuns (fun b => args.squeeze && args.inSet1 b) none
      (args.translate order chunks.flatten) := by
  have hfold : (chunks.flatten.foldl (args.processByte order) (none, [])).2 = _ :=
    foldl_processByte chunks.flatten none []
  rw [List.foldl_flatten, List.nil_append] at hfold
  exact hfold

/-! ### The table -/

/-- The table has the byte that was entered last. -/
lemma foldl_update (target : ℕ → UInt8 → UInt8) (ps : List (UInt8 × ℕ)) (f : UInt8 → UInt8) :
    ps.foldl (fun m p => Function.update m p.1 (target p.2 p.1)) f b =
      match (ps.filter (·.1 = b)).getLast?.map Prod.snd with
      | some i => target i b
      | none => f b := by
  induction ps using List.reverseRecOn with
  | nil => rfl
  | append_singleton ps p ih =>
    rw [List.foldl_append, List.foldl_cons, List.foldl_nil, List.filter_append]
    by_cases hp : p.1 = b
    · subst hp
      simp [Function.update_self]
    · rw [Function.update_of_ne (Ne.symm hp), ih]
      simp [hp]

lemma table_complementBytes (hdelete : args.delete = false) :
    args.table args.complementBytes = args.mapped := by
  funext b
  rw [table, mapped]
  by_cases hbytes : args.bytes2 = []
  · have htarget (i : ℕ) : args.target i b = b := by simp [target, hbytes]
    simp only [hbytes, htarget, ne_eq, not_true_eq_false, decide_false, Bool.and_false,
      Bool.false_eq_true, if_false]
    split <;> rfl
  · simp only [hdelete, hbytes, ne_eq, not_false_eq_true, decide_true, Bool.not_false,
      Bool.and_self, if_true]
    exact foldl_update args.target _ id

/-- In increasing order the bytes are mapped as they should be. -/
lemma translate_complementBytes (input : List UInt8) :
    args.translate args.complementBytes input = args.translated input := by
  rw [translate, translated]
  split_ifs with hdelete
  · rfl
  · rw [table_complementBytes (by simpa using hdelete)]

lemma foldl_update_zipIdx (target : ℕ → UInt8 → UInt8) {vec : List UInt8} (hnodup : vec.Nodup)
    (k : ℕ) (f : UInt8 → UInt8) :
    (vec.zipIdx k).foldl (fun m p => Function.update m p.1 (target p.2 p.1)) f b =
      if b ∈ vec then target (k + vec.idxOf b) b else f b := by
  induction vec generalizing k f with
  | nil => rfl
  | cons a vec ih =>
    obtain ⟨ha, hvec⟩ := List.nodup_cons.mp hnodup
    rw [List.zipIdx_cons, List.foldl_cons, ih hvec]
    by_cases hb : b = a
    · subst hb
      rw [if_neg ha, if_pos List.mem_cons_self, Function.update_self, List.idxOf_cons_self]
      rfl
    · rw [Function.update_of_ne hb, List.idxOf_cons_ne _ (Ne.symm hb)]
      simp only [List.mem_cons, hb, false_or]
      congr 2
      omega

lemma transMap_of_nodup (hnodup : order.Nodup) :
    args.transMap order b = if b ∈ order then args.target (order.idxOf b) b else b := by
  have hfold := foldl_update_zipIdx (b := b) args.target hnodup 0 id
  rw [Nat.zero_add] at hfold
  exact hfold

lemma nodup_complementBytes : args.complementBytes.Nodup := by
  refine List.Nodup.filter _ (List.Nodup.map_on ?_ List.nodup_range)
  intro m hm n hn heq
  have hm := List.mem_range.mp hm
  have hn := List.mem_range.mp hn
  have hnat := congrArg UInt8.toNat heq
  rwa [UInt8.toNat_ofNat_of_lt' hm, UInt8.toNat_ofNat_of_lt' hn] at hnat

/-- Where all bytes of a complement are mapped to one, their order makes no difference. -/
lemma table_of_orderFree (h : args.OrderFree) (horder : order.Perm args.complementBytes) :
    args.table order = args.table args.complementBytes := by
  cases hcomplement : args.complement with
  | false => simp [table, hcomplement]
  | true =>
    cases hdelete : args.delete with
    | true => simp [table, hdelete]
    | false =>
      have htarget := h hcomplement hdelete
      have hmap : args.transMap order = args.transMap args.complementBytes := by
        funext b
        rw [transMap_of_nodup (horder.nodup_iff.mpr nodup_complementBytes),
          transMap_of_nodup nodup_complementBytes]
        by_cases hb : b ∈ args.complementBytes
        · have hb' : b ∈ order := horder.mem_iff.mpr hb
          have hlt : order.idxOf b < args.complementBytes.length := by
            rw [← horder.length_eq]
            exact List.idxOf_lt_length_iff.mpr hb'
          rw [if_pos hb', if_pos hb, htarget _ hlt,
            htarget _ (List.idxOf_lt_length_iff.mpr hb)]
        · rw [if_neg hb, if_neg fun hb' => hb (horder.mem_iff.mp hb')]
      simp [table, hcomplement, hmap]

/-! ### The output -/

lemma table_of_notMem (horder : order.Perm args.complementBytes)
    (hb : b ∉ args.complementBytes) : args.table order b = args.table args.complementBytes b := by
  have hb' : b ∉ order := fun h => hb (horder.mem_iff.mp h)
  rw [table, table]
  split_ifs
  · rw [transMap_of_nodup (horder.nodup_iff.mpr nodup_complementBytes),
      transMap_of_nodup nodup_complementBytes, if_neg hb, if_neg hb']
  · rfl
  · rfl

/-- The order of the hash set matters to the bytes of a complement only, and to these only where
they are mapped to several bytes. -/
lemma translate_of_orderFree (h : args.OrderFree ∨ ∀ b ∈ input, b ∉ args.complementBytes)
    (horder : order.Perm args.complementBytes) :
    args.translate order input = args.translated input := by
  rw [← translate_complementBytes, translate, translate]
  split_ifs
  · rfl
  refine List.map_congr_left fun b hb => ?_
  rcases h with hfree | hnone
  · rw [table_of_orderFree hfree horder]
  · exact table_of_notMem horder (hnone b hb)

end TrArgs

end AmlaSandbox.Commands
