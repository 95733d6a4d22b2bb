import FastOrchestration.Lib.PrefixCode

/-!
# Encoded paths of CHASM nodes

Model of `chasm/path_encoder.go` and of `path` in `chasm/tree.go`. The names of a path are joined by
separators and everything in a name that could be taken for one is escaped, so that parts of a tree are
ranges of encoded paths in byte order.

An encoding is written as a list of symbols, which are separators and characters of names. Their texts
form a prefix code, so that all that is said about encodings is said about lists of symbols.

The separator before a child of a collection is another one, but only in the path of the child itself. The
paths of nodes further down have the ordinary separator there.
-/

namespace FastOrchestration.Chasm.PathEncoder

open Lib List

/-- A node of a tree; Go has pointers to the parents. `isCollection` says that the metadata has
`CollectionAttributes`. -/
inductive Node where
  | root (isCollection : Bool)
  | child (parent : Node) (nodeName : String) (isCollection : Bool)
  deriving DecidableEq

namespace Node

def isCollection : Node → Bool
  | root c => c
  | child _ _ c => c

def path : Node → List String
  | root _ => []
  | child parent nodeName _ => parent.path ++ [nodeName]

def belowCollection : Node → Bool
  | root _ => false
  | child parent _ _ => parent.isCollection

def lineage : Node → List Node
  | root c => [root c]
  | child parent nodeName c => child parent nodeName c :: parent.lineage

end Node

def nameSeparator : Char := '$'

def collectionSeparator : Char := '#'

def escapeChar : Char := '\\'

/-- `utf8.RuneError`, which Go also reads for what is not UTF-8. -/
def runeError : Char := '�'

inductive PathError where
  | emptyNodeName (path : List String)
  | invalidNodeName (nodeName : String)
  | invalidEncodedPath (encodedPath : String)
  | endsWithEscape (encodedPath : String)
  deriving DecidableEq

/-! ### Encode -/

def escapes (r : Char) : Bool := r = escapeChar || r = nameSeparator || r ≤ collectionSeparator

lemma not_escapes {r} (h : ¬ escapes r) : r ≠ '\\' ∧ r ≠ '$' ∧ '#' < r := by
  simp only [escapes, escapeChar, nameSeparator, collectionSeparator, Bool.or_eq_true, not_or] at h
  obtain ⟨⟨hback, hname⟩, hcoll⟩ := h
  exact ⟨fun heq => hback (decide_eq_true heq), fun heq => hname (decide_eq_true heq),
    Char.not_le.mp fun hle => hcoll (decide_eq_true hle)⟩

def encodeRune (r : Char) : List Char := if escapes r then [escapeChar, r] else [r]

/-- The loop of Go `Encode` over the names that are left. -/
def encodeNames (node : Node) (path : List String) : Bool → List String → Except PathError (List Char)
  | _, [] => .ok []
  | first, nodeName :: rest => do
    let separator :=
      if first then [] else if rest = [] ∧ node.belowCollection then [collectionSeparator] else [nameSeparator]
    if nodeName = "" then .error (.emptyNodeName path)
    else if runeError ∈ nodeName.toList then .error (.invalidNodeName nodeName)
    else
      let tail ← encodeNames node path false rest
      .ok (separator ++ nodeName.toList.flatMap encodeRune ++ tail)

/-- Go `Encode`, with the path of the node. -/
def encode (node : Node) : Except PathError String :=
  String.ofList <$> encodeNames node node.path true node.path

/-! ### Decode -/

/-- The loop of Go `Decode`. -/
def decodeRunes (encodedPath : String) :
    List String → List Char → Bool → List Char → Except PathError (List String)
  | path, b, escaped, [] =>
    if escaped then .error (.endsWithEscape encodedPath) else .ok (path ++ [String.ofList b])
  | path, b, escaped, r :: rest =>
    if r = runeError then .error (.invalidEncodedPath encodedPath)
    else if escaped then decodeRunes encodedPath path (b ++ [r]) false rest
    else if r = '\\' then decodeRunes encodedPath path b true rest
    else if r = '$' ∨ r = '#' then decodeRunes encodedPath (path ++ [String.ofList b]) [] false rest
    else decodeRunes encodedPath path (b ++ [r]) false rest

def decode (encodedPath : String) : Except PathError (List String) :=
  if encodedPath = "" then .ok [] else decodeRunes encodedPath [] [] false encodedPath.toList

/-! ### Symbols -/

inductive Symbol where
  | separator (collection : Bool)
  | rune (r : Char)
  deriving DecidableEq

namespace Symbol

def text : Symbol → List Char
  | separator c => if c then [collectionSeparator] else [nameSeparator]
  | rune r => encodeRune r

def bytes (s : Symbol) : List UInt8 := s.text.flatMap String.utf8EncodeChar

def isSeparator : Symbol → Bool
  | separator _ => true
  | rune _ => false

end Symbol

/-- Go strings are compared byte by byte. -/
def bytes (s : String) : List UInt8 := s.toList.flatMap String.utf8EncodeChar

def runes (nodeName : String) : List Symbol := nodeName.toList.map .rune

/-- The symbols of the names that are left, each after a separator; `last` is the one before the last
name. -/
def symbolsAfter (last : Bool) : List String → List Symbol
  | [] => []
  | nodeName :: rest => .separator (rest.isEmpty && last) :: runes nodeName ++ symbolsAfter last rest

def symbolsOf (last : Bool) : List String → List Symbol
  | [] => []
  | nodeName :: rest => runes nodeName ++ symbolsAfter last rest

def symbols (node : Node) : List Symbol := symbolsOf node.belowCollection node.path

def ValidName (nodeName : String) : Prop := nodeName ≠ "" ∧ runeError ∉ nodeName.toList

instance (nodeName : String) : Decidable (ValidName nodeName) := inferInstanceAs (Decidable (_ ∧ _))

variable {node : Node}

lemma encodeNames_ok {path names} (h : ∀ n ∈ names, ValidName n) : encodeNames node path false names =
      .ok ((symbolsAfter node.belowCollection names).flatMap Symbol.text) := by
  induction names with
  | nil => rfl
  | cons nodeName rest ih =>
    have hname := h nodeName (by simp)
    have hrest := ih fun n hn => h n (by simp [hn])
    simp only [encodeNames, Bool.false_eq_true, if_false, if_neg hname.1, if_neg hname.2, hrest,
      symbolsAfter, cons_append, flatMap_cons, flatMap_append]
    cases rest <;> cases node.belowCollection <;> simp [Symbol.text, runes, flatMap_map, Bind.bind, Except.bind]

theorem encode_ok (h : ∀ n ∈ node.path, ValidName n) :
    encode node = .ok (String.ofList ((symbols node).flatMap Symbol.text)) := by
  unfold encode symbols symbolsOf
  cases hp : node.path with
  | nil => rfl
  | cons nodeName rest =>
    have hname := h nodeName (by simp [hp])
    have hrest : ∀ n ∈ rest, ValidName n := fun n hn => h n (by simp [hp, hn])
    simp [encodeNames, hname.1, hname.2, encodeNames_ok hrest, runes, flatMap_map, Symbol.text,
      Functor.map, Except.map, Bind.bind, Except.bind]

/-! ### Reading symbols -/

/-- What `Decode` makes of symbols. -/
def readSymbols : List String → List Char → List Symbol → List String
  | path, b, [] => path ++ [String.ofList b]
  | path, b, .separator _ :: rest => readSymbols (path ++ [String.ofList b]) [] rest
  | path, b, .rune r :: rest => readSymbols path (b ++ [r]) rest

lemma decodeRunes_text {encodedPath path b} {ss : List Symbol} (h : .rune runeError ∉ ss) :
    decodeRunes encodedPath path b false (ss.flatMap Symbol.text) = .ok (readSymbols path b ss) := by
  induction ss generalizing path b with
  | nil => simp [decodeRunes, readSymbols]
  | cons s ss ih =>
    have hrest : .rune runeError ∉ ss := fun hin => h (mem_cons_of_mem _ hin)
    cases s with
    | separator c =>
      cases c <;> simp [Symbol.text, nameSeparator, collectionSeparator, decodeRunes, runeError, ih hrest, readSymbols]
    | rune r =>
      have hr : r ≠ runeError := fun heq => h (by simp [heq])
      simp only [flatMap_cons, Symbol.text, encodeRune]
      split
      · -- the escape character, then the character itself
        simp [escapeChar, decodeRunes, runeError, ih hrest, readSymbols]
        simpa [runeError] using hr
      next hesc =>
      obtain ⟨hback, hname, hcoll⟩ := not_escapes hesc
      have hsep : ¬ (r = '$' ∨ r = '#') := by
        rintro (rfl | rfl)
        · exact hname rfl
        · exact absurd hcoll (by decide)
      simp [decodeRunes, hr, hback, hsep, ih hrest, readSymbols]

lemma readSymbols_runes {path b} {nodeName : String} {ss} :
    readSymbols path b (runes nodeName ++ ss) = readSymbols path (b ++ nodeName.toList) ss := by
  unfold runes
  induction nodeName.toList generalizing b with
  | nil => simp
  | cons r rs ih => simp [readSymbols, ih]

lemma readSymbols_separator {path b ss rest c} :
    readSymbols path b (ss ++ .separator c :: rest) = readSymbols (readSymbols path b ss) [] rest := by
  induction ss generalizing path b with
  | nil => rfl
  | cons s ss ih => cases s <;> exact ih

lemma readSymbols_path {path b ss} : readSymbols path b ss = path ++ readSymbols [] b ss := by
  induction ss generalizing path b with
  | nil => rfl
  | cons s ss ih =>
    cases s with
    | separator c =>
      simp only [readSymbols, nil_append]
      rw [ih, @ih [String.ofList b], append_assoc]
    | rune r => exact ih

lemma readSymbols_symbolsAfter {path names b last} :
    readSymbols path b (symbolsAfter last names) = path ++ String.ofList b :: names := by
  induction names generalizing path b with
  | nil => rfl
  | cons nodeName rest ih =>
    simp only [symbolsAfter, cons_append, readSymbols, readSymbols_runes, ih]
    simp

/-- The symbols of a node other than the root tell its path. -/
lemma readSymbols_symbols (h : node.path ≠ []) : readSymbols [] [] (symbols node) = node.path := by
  unfold symbols symbolsOf
  cases hp : node.path with
  | nil => exact absurd hp h
  | cons nodeName rest => simp [readSymbols_runes, readSymbols_symbolsAfter]

lemma symbols_ne_nil (hv : ∀ n ∈ node.path, ValidName n) (h : node.path ≠ []) :
    ∃ r ss, symbols node = .rune r :: ss := by
  unfold symbols symbolsOf
  cases hp : node.path with
  | nil => exact absurd hp h
  | cons nodeName rest =>
    have hname := (hv nodeName (by simp [hp])).1
    cases hl : nodeName.toList with
    | nil => exact absurd (String.toList_eq_nil_iff.mp hl) hname
    | cons r rs => exact ⟨r, _, by simp [runes, hl]; rfl⟩

lemma symbols_eq_nil (h : node.path = []) : symbols node = [] := by
  simp [symbols, symbolsOf, h]

lemma runeError_notMem (hv : ∀ n ∈ node.path, ValidName n) : .rune runeError ∉ symbols node := by
  have hruns : ∀ n, ValidName n → .rune runeError ∉ runes n := by
    intro n hn hin
    obtain ⟨r, hr, heq⟩ := mem_map.mp hin
    cases heq
    exact hn.2 hr
  have hafter : ∀ last names, (∀ n ∈ names, ValidName n) → .rune runeError ∉ symbolsAfter last names := by
    intro last names hn
    induction names with
    | nil => simp [symbolsAfter]
    | cons a names ih =>
      have ha := hruns a (hn a (by simp))
      have hrest := ih fun n h => hn n (by simp [h])
      simp [symbolsAfter, ha, hrest]
  unfold symbols symbolsOf
  cases hp : node.path with
  | nil => simp
  | cons a rest =>
    have ha := hruns a (hv a (by simp [hp]))
    have hrest := hafter node.belowCollection rest fun n h => hv n (by simp [hp, h])
    simp [ha, hrest]

theorem decode_encode (hv : ∀ n ∈ node.path, ValidName n) : ∃ e, encode node = .ok e ∧ decode e = .ok node.path := by
  refine ⟨_, encode_ok hv, ?_⟩
  unfold decode
  by_cases hp : node.path = []
  · simp [symbols_eq_nil hp, hp]
  have hne : String.ofList ((symbols node).flatMap Symbol.text) ≠ "" := by
    obtain ⟨r, ss, heq⟩ := symbols_ne_nil hv hp
    rw [heq]
    intro h
    have := congrArg String.toList h
    simp only [flatMap_cons, Symbol.text, encodeRune] at this
    split at this <;> simp at this
  rw [if_neg hne, String.toList_ofList, decodeRunes_text (runeError_notMem hv), readSymbols_symbols hp]

/-!
## Range queries over encoded paths

The documentation of `Encode` has the range queries for a subtree and for the children of a collection.
`pathQueries` says for which nodes they return what they are for. A child of a collection has the
collection's separator before its name, and its descendants have the ordinary one there, so that they are
not in the range of the child. The root has no name, and the paths of its descendants start with one.
-/

open Symbol

/-! ### Symbols are a prefix code -/

lemma utf8EncodeChar_prefixFree : PrefixFree String.utf8EncodeChar where
  nonempty c h := by
    have hlen := String.length_utf8EncodeChar c
    rw [h] at hlen
    exact absurd hlen.symm (Nat.ne_of_gt c.utf8Size_pos)
  inj a b := by
    rintro ⟨t, ht⟩
    have heq : [a].utf8Encode ++ t.toByteArray = [b].utf8Encode := by
      simp [List.utf8Encode, ← ht]
    obtain ⟨m, hm⟩ := isPrefix_of_utf8Encode_append_eq_utf8Encode _ heq
    exact (List.cons.inj hm).1

/-- The first character tells a separator from a character of a name. -/
lemma encodeRune_cases (r : Char) :
    encodeRune r = ['\\', r] ∨ encodeRune r = [r] ∧ r ≠ '\\' ∧ r ≠ '$' ∧ '#' < r := by
  unfold encodeRune
  split
  · exact .inl rfl
  · next h => exact .inr ⟨rfl, not_escapes h⟩

lemma text_prefixFree : PrefixFree text where
  nonempty s h := by
    cases s with
    | separator c => cases c <;> cases h
    | rune r => rcases encodeRune_cases r with hr | ⟨hr, -⟩ <;> simp [text, hr] at h
  inj a b := by
    rintro ⟨t, ht⟩
    cases a with
    | separator c =>
      cases b with
      | separator d => cases c <;> cases d <;> simp_all [text, collectionSeparator, nameSeparator]
      | rune r =>
        rcases encodeRune_cases r with hr | ⟨hr, -, hname, hcoll⟩ <;> cases c <;>
          simp [text, hr, collectionSeparator, nameSeparator] at ht
        · exact absurd ht.1.symm hname
        · exact absurd hcoll (ht.1 ▸ by decide)
    | rune r =>
      cases b with
      | separator d =>
        rcases encodeRune_cases r with hr | ⟨hr, -, hname, hcoll⟩ <;> cases d <;>
          simp [text, hr, collectionSeparator, nameSeparator] at ht
        · exact absurd ht.1 hname
        · exact absurd (ht.1 ▸ hcoll) (by decide)
      | rune q =>
        rcases encodeRune_cases r with hr | ⟨hr, hback, -⟩
        · rcases encodeRune_cases q with hq | ⟨hq, -⟩
          · simp only [text, hr, hq, cons_append, List.cons.injEq, true_and] at ht
            rw [ht.1]
          · simp [text, hr, hq] at ht
        rcases encodeRune_cases q with hq | ⟨hq, -⟩
        · simp only [text, hr, hq, cons_append, List.cons.injEq] at ht
          exact absurd ht.1 hback
        simp only [text, hr, hq, cons_append, List.cons.injEq] at ht
        rw [ht.1]

lemma bytes_prefixFree : PrefixFree Symbol.bytes := text_prefixFree.comp utf8EncodeChar_prefixFree

/-- A character that is not ASCII starts with a byte that is not either. -/
lemma head_utf8EncodeChar {r : Char} {b} (h : (String.utf8EncodeChar r).head? = some b)
    (hr : 0x25 ≤ r.val.toNat) : ¬ b < 0x25 := by
  rw [UInt8.lt_iff_toNat_lt]
  unfold String.utf8EncodeChar at h
  simp only at h
  -- one to four bytes
  repeat' split at h
  all_goals
    cases h
    simp only [UInt8.toNat_ofNat', UInt8.reduceToNat]
    omega

/-- `%` comes after the separators and before everything that a name can start with. -/
lemma head_bytes_lt {s : Symbol} {b} (h : s.bytes.head? = some b) : b < 0x25 ↔ s.isSeparator := by
  cases s with
  | separator c => cases c <;> cases h <;> decide
  | rune r =>
    simp only [isSeparator, Bool.false_eq_true, iff_false]
    rcases encodeRune_cases r with hr | ⟨hr, -, hname, hcoll⟩
    · simp only [Symbol.bytes, Symbol.text, hr, flatMap_cons] at h
      cases h
      decide
    simp only [Symbol.bytes, Symbol.text, hr, flatMap_cons, flatMap_nil, append_nil] at h
    refine head_utf8EncodeChar h ?_
    have hgt : 0x23 < r.val.toNat := hcoll
    have hne : r.val.toNat ≠ 0x24 := fun heq => hname (Char.ext (UInt32.toNat_inj.mp heq))
    omega

/-! ### Paths and symbols -/

lemma symbolsAfter_append {last a b} (h : b ≠ []) :
    symbolsAfter last (a ++ b) = symbolsAfter false a ++ symbolsAfter last b := by
  induction a with
  | nil => rfl
  | cons x a ih =>
    have hne : (a ++ b).isEmpty = false := by simp [h]
    simp [symbolsAfter, ih, hne]

/-- Below a node all separators of its own path are ordinary ones. -/
lemma symbolsOf_append {last a b} (ha : a ≠ []) (hb : b ≠ []) :
    symbolsOf last (a ++ b) = symbolsOf false a ++ symbolsAfter last b := by
  cases a with
  | nil => exact absurd rfl ha
  | cons x a => simp [symbolsOf, symbolsAfter_append hb]

/-- The path of the node ends with a separator that the paths below it do not have. -/
def endsApart (node : Node) : Bool := node.belowCollection && 2 ≤ node.path.length

/-- A node whose descendants have its encoding as a prefix. -/
def Regular (node : Node) : Prop := node.path ≠ [] ∧ ¬ endsApart node

instance (node : Node) : Decidable (Regular node) := inferInstanceAs (Decidable (_ ∧ _))

lemma Regular.symbols_eq {node : Node} (h : Regular node) : symbols node = symbolsOf false node.path := by
  unfold symbols
  cases hb : node.belowCollection with
  | false => rfl
  | true =>
    have hlen : ¬ 2 ≤ node.path.length := by simpa [endsApart, hb] using h.2
    match hp : node.path with
    | [] => rfl
    | [x] => rfl
    | x :: y :: rest => simp [hp] at hlen

lemma symbolsOf_true_ne {path : List String} (h : 2 ≤ path.length) :
    symbolsOf true path ≠ symbolsOf false path := by
  obtain ⟨a, x, rfl⟩ := eq_nil_or_concat path |>.resolve_left (by rintro rfl; simp at h)
  have ha : a ≠ [] := by
    rintro rfl
    simp at h
  simp [symbolsOf_append ha, symbolsAfter]

lemma length_symbolsAfter {last last' names} :
    (symbolsAfter last names).length = (symbolsAfter last' names).length := by
  induction names with
  | nil => rfl
  | cons x names ih => simp [symbolsAfter, ih]

lemma not_prefix_of_endsApart {node : Node} (h : endsApart node) {last names}
    (hne : names ≠ []) : ¬ symbols node <+: symbolsOf last (node.path ++ names) := by
  simp only [endsApart, Bool.and_eq_true, decide_eq_true_eq] at h
  have hpath : node.path ≠ [] := by
    rintro hnil
    simp [hnil] at h
  rw [symbolsOf_append hpath hne, symbols, h.1]
  rintro ⟨k, hk⟩
  have hlen : (symbolsOf true node.path).length = (symbolsOf false node.path).length := by
    cases hp : node.path with
    | nil => rfl
    | cons x rest => simp [symbolsOf, @length_symbolsAfter true false rest]
  exact symbolsOf_true_ne h.2 (append_inj hk hlen).1

variable {n d : Node}

lemma path_of_separator (hn : n.path ≠ []) {c rest}
    (h : symbols d = symbols n ++ .separator c :: rest) : d.path = n.path ++ readSymbols [] [] rest := by
  have hd : d.path ≠ [] := by
    intro hnil
    rw [symbols_eq_nil hnil] at h
    simp at h
  rw [← readSymbols_symbols hd, h, readSymbols_separator, readSymbols_symbols hn, readSymbols_path]

lemma readSymbols_ne_nil {path b ss} : readSymbols path b ss ≠ [] := by
  induction ss generalizing path b with
  | nil => simp [readSymbols]
  | cons s ss ih => cases s <;> exact ih

lemma not_continues_of_endsApart {n d} (h : endsApart n) {c rest} :
    symbols d ≠ symbols n ++ .separator c :: rest := by
  intro heq
  have hpath : n.path ≠ [] := by
    intro hnil
    simp [endsApart, hnil] at h
  have hd := path_of_separator hpath heq
  have hnot := @not_prefix_of_endsApart n h d.belowCollection _ (@readSymbols_ne_nil [] [] rest)
  rw [← hd] at hnot
  exact hnot ⟨_, heq.symm⟩

/-! ### Trees -/

/-- The nodes of a tree: with a node its parent is there, and a node has one child of a name. -/
structure Tree where
  nodes : List Node
  parent : ∀ p nodeName c, .child p nodeName c ∈ nodes → p ∈ nodes
  unique : ∀ n ∈ nodes, ∀ m ∈ nodes, n.path = m.path → n = m
  valid : ∀ n ∈ nodes, ∀ nodeName ∈ n.path, ValidName nodeName

lemma path_of_mem_lineage (h : n ∈ d.lineage) : n.path <+: d.path := by
  induction d with
  | root c =>
    obtain rfl := mem_singleton.mp h
    exact prefix_rfl
  | child p nodeName c ih =>
    rcases mem_cons.mp h with rfl | hp
    · exact prefix_rfl
    · exact (ih hp).trans (prefix_append _ _)

lemma Tree.mem_lineage (t : Tree) (hn : n ∈ t.nodes) (hd : d ∈ t.nodes) :
    n ∈ d.lineage ↔ n.path <+: d.path := by
  refine ⟨path_of_mem_lineage, fun h => ?_⟩
  induction d with
  | root c =>
    have hpath : n.path = (Node.root c).path := prefix_nil.mp h
    simp [t.unique n hn _ hd hpath, Node.lineage]
  | child p nodeName c ih =>
    rcases prefix_concat_iff.mp h with heq | hp
    · simp [t.unique n hn _ hd heq, Node.lineage]
    · exact mem_cons_of_mem _ (ih (t.parent p nodeName c hd) hp)

/-- The encoding of `d` is in the range from that of `n` up to that of `n` followed by `%`. -/
def InRange (n d : Node) : Prop :=
  ∃ e f, encode n = .ok e ∧ encode d = .ok f ∧ bytes e ≤ bytes f ∧ bytes f < bytes (e ++ "%")

/-- The encoding of `d` starts with that of `n` followed by `#`. -/
def InCollection (n d : Node) : Prop :=
  ∃ e f, encode n = .ok e ∧ encode d = .ok f ∧ bytes (e ++ "#") <+: bytes f

def IsChild (n d : Node) : Prop := ∃ nodeName c, d = .child n nodeName c

lemma bytes_encode {n : Node} (hn : ∀ x ∈ n.path, ValidName x) :
    ∃ e, encode n = .ok e ∧ bytes e = (symbols n).flatMap Symbol.bytes := by
  refine ⟨_, encode_ok hn, ?_⟩
  simp only [bytes, String.toList_ofList, flatMap_assoc]
  rfl

lemma bytes_append {s s'} : bytes (s ++ s') = bytes s ++ bytes s' := by
  simp [bytes]

section

variable (hn : ∀ x ∈ n.path, ValidName x) (hd : ∀ x ∈ d.path, ValidName x)

include hn hd

lemma inRange_iff : InRange n d ↔ ∃ k, symbols d = symbols n ++ k ∧ ∀ s ∈ k.head?, s.isSeparator := by
  obtain ⟨e, he, hbe⟩ := bytes_encode hn
  obtain ⟨f, hf, hbf⟩ := bytes_encode hd
  have hpercent : bytes (e ++ "%") = (symbols n).flatMap Symbol.bytes ++ [0x25] := by
    rw [bytes_append, hbe]
    rfl
  have hhead : ∀ k s b, s.bytes.head? = some b →
      ((s :: k).flatMap Symbol.bytes).head? = some b := by
    intro k s b hb
    simp [hb]
  constructor
  · rintro ⟨e', f', he', hf', hrange⟩
    obtain rfl : e = e' := Except.ok.inj (he.symm.trans he')
    obtain rfl : f = f' := Except.ok.inj (hf.symm.trans hf')
    rw [hpercent, hbe, hbf] at hrange
    obtain ⟨r, hr, hlt⟩ := le_and_lt_concat.mp hrange
    obtain ⟨k, hk, rfl⟩ := bytes_prefixFree.of_append hr.symm
    refine ⟨k, hk, fun s hs => ?_⟩
    cases k with
    | nil => cases hs
    | cons s' k =>
      cases hs
      cases hb : s.bytes.head? with
      | none => exact absurd (head?_eq_none_iff.mp hb) (bytes_prefixFree.nonempty s)
      | some b => exact (head_bytes_lt hb).mp (hlt b (hhead k s b hb))
  rintro ⟨k, hk, hsep⟩
  refine ⟨e, f, he, hf, ?_⟩
  rw [hpercent, hbe, hbf]
  refine le_and_lt_concat.mpr ⟨k.flatMap Symbol.bytes, by rw [hk, flatMap_append], fun b hb => ?_⟩
  cases k with
  | nil => cases hb
  | cons s k =>
    cases hs : s.bytes.head? with
    | none => exact absurd (head?_eq_none_iff.mp hs) (bytes_prefixFree.nonempty s)
    | some b' =>
      obtain rfl : b' = b := Option.some.inj ((hhead k s b' hs).symm.trans hb)
      exact (head_bytes_lt hs).mpr (hsep s rfl)

lemma inCollection_iff : InCollection n d ↔ ∃ rest, symbols d = symbols n ++ .separator true :: rest := by
  obtain ⟨e, he, hbe⟩ := bytes_encode hn
  obtain ⟨f, hf, hbf⟩ := bytes_encode hd
  have hcoll : bytes (e ++ "#") = (symbols n ++ [Symbol.separator true]).flatMap Symbol.bytes := by
    rw [bytes_append, hbe, flatMap_append]
    rfl
  constructor
  · rintro ⟨e', f', he', hf', r, hr⟩
    obtain rfl : e = e' := Except.ok.inj (he.symm.trans he')
    obtain rfl : f = f' := Except.ok.inj (hf.symm.trans hf')
    rw [hcoll, hbf] at hr
    obtain ⟨k, hk, -⟩ := bytes_prefixFree.of_append hr
    exact ⟨k, by simpa using hk⟩
  rintro ⟨rest, hrest⟩
  refine ⟨e, f, he, hf, rest.flatMap Symbol.bytes, ?_⟩
  rw [hcoll, hbf, hrest, ← flatMap_append]
  simp

end

/-! ### Queries -/

def Tree.SubtreeQuery (t : Tree) (n : Node) : Prop := ∀ d ∈ t.nodes, InRange n d ↔ n ∈ d.lineage

/-- What starts with the encoding of a node and `#` are the children of the node. -/
def Tree.ChildrenQuery (t : Tree) (n : Node) : Prop := ∀ d ∈ t.nodes, InCollection n d ↔ IsChild n d

def Tree.IsLeaf (t : Tree) (n : Node) : Prop := ∀ d ∈ t.nodes, n ∈ d.lineage → d = n

lemma symbols_eq_append {d : Node} {path names} (h : d.path = path ++ names) (hp : path ≠ [])
    (hne : names ≠ []) : symbols d = symbolsOf false path ++ symbolsAfter d.belowCollection names := by
  rw [symbols, h, symbolsOf_append hp hne]

section

variable (t : Tree) (hn : n ∈ t.nodes)

include hn

/-- A range has only descendants, and no other ones than the node itself if it is not regular. -/
lemma Tree.lineage_of_inRange (hd : d ∈ t.nodes) (h : InRange n d) : n ∈ d.lineage ∧ (¬ Regular n → d = n) := by
  obtain ⟨k, hk, hsep⟩ := (inRange_iff (t.valid n hn) (t.valid d hd)).mp h
  by_cases hroot : n.path = []
  · -- what follows the root starts with a name
    have hdroot : d.path = [] := by
      by_contra hne
      obtain ⟨r, ss, hss⟩ := symbols_ne_nil (t.valid d hd) hne
      rw [symbols_eq_nil hroot, nil_append, hss] at hk
      have := hsep (.rune r) (by rw [← hk]; rfl)
      cases this
    obtain rfl := t.unique d hd n hn (hdroot.trans hroot.symm)
    exact ⟨(t.mem_lineage hd hd).mpr prefix_rfl, fun _ => rfl⟩
  cases k with
  | nil =>
    have hpath : d.path = n.path := by
      have hne : d.path ≠ [] := by
        intro hnil
        obtain ⟨r, ss, hss⟩ := symbols_ne_nil (t.valid n hn) hroot
        rw [symbols_eq_nil hnil, append_nil, hss] at hk
        cases hk
      rw [← readSymbols_symbols hne, hk, append_nil, readSymbols_symbols hroot]
    obtain rfl := t.unique d hd n hn hpath
    exact ⟨(t.mem_lineage hd hd).mpr prefix_rfl, fun _ => rfl⟩
  | cons s k =>
    cases s with
    | rune r => cases hsep (.rune r) rfl
    | separator c =>
      have hpath := path_of_separator hroot hk
      refine ⟨(t.mem_lineage hn hd).mpr ⟨_, hpath.symm⟩, fun hirr => ?_⟩
      have hapart : endsApart n := by
        by_contra hnot
        exact hirr ⟨hroot, hnot⟩
      exact absurd hk (not_continues_of_endsApart hapart)

lemma Tree.inRange_of_regular (hd : d ∈ t.nodes) (h : Regular n) (hin : n ∈ d.lineage) : InRange n d := by
  refine (inRange_iff (t.valid n hn) (t.valid d hd)).mpr ?_
  obtain ⟨names, hnames⟩ := path_of_mem_lineage hin
  cases names with
  | nil =>
    obtain rfl := t.unique n hn d hd (by simpa using hnames)
    exact ⟨[], by simp, by simp⟩
  | cons x names =>
    refine ⟨symbolsAfter d.belowCollection (x :: names), ?_, ?_⟩
    · rw [symbols_eq_append hnames.symm h.1 (by simp), h.symbols_eq]
    intro s hs
    cases hs
    rfl

theorem Tree.subtreeQuery_iff : t.SubtreeQuery n ↔ Regular n ∨ t.IsLeaf n := by
  constructor
  · intro h
    by_cases hreg : Regular n
    · exact .inl hreg
    · exact .inr fun d hd hin => (t.lineage_of_inRange hn hd ((h d hd).mpr hin)).2 hreg
  rintro h d hd
  refine ⟨fun hin => (t.lineage_of_inRange hn hd hin).1, fun hin => ?_⟩
  rcases h with hreg | hleaf
  · exact t.inRange_of_regular hn hd hreg hin
  obtain rfl := hleaf d hd hin
  exact (inRange_iff (t.valid d hd) (t.valid d hd)).mpr ⟨[], by simp, by simp⟩

lemma Tree.isChild_of_inCollection (hd : d ∈ t.nodes) (h : InCollection n d) : Regular n ∧ IsChild n d := by
  obtain ⟨rest, hrest⟩ := (inCollection_iff (t.valid n hn) (t.valid d hd)).mp h
  have hroot : n.path ≠ [] := by
    intro hroot
    rw [symbols_eq_nil hroot, nil_append] at hrest
    by_cases hd' : d.path = []
    · rw [symbols_eq_nil hd'] at hrest
      cases hrest
    obtain ⟨r, ss, hss⟩ := symbols_ne_nil (t.valid d hd) hd'
    rw [hss] at hrest
    cases hrest
  have hpath := path_of_separator hroot hrest
  have hreg : Regular n := ⟨hroot, fun hapart => not_continues_of_endsApart hapart hrest⟩
  refine ⟨hreg, ?_⟩
  -- only the separator before the last name can be `#`
  rw [symbols_eq_append hpath hroot readSymbols_ne_nil, hreg.symbols_eq, List.append_cancel_left_eq] at hrest
  cases hnames : readSymbols [] [] rest with
  | nil => exact absurd hnames readSymbols_ne_nil
  | cons x names =>
    rw [hnames] at hrest hpath
    simp only [symbolsAfter, List.cons_append, List.cons.injEq, separator.injEq, Bool.and_eq_true,
      List.isEmpty_iff] at hrest
    rw [hrest.1.1] at hpath
    cases d with
    | root c => simp [Node.path] at hpath
    | child p nodeName c =>
      have hparent : p.path = n.path := (append_inj' hpath rfl).1
      obtain rfl := t.unique p (t.parent p nodeName c hd) n hn hparent
      exact ⟨nodeName, c, rfl⟩

theorem Tree.childrenQuery_iff (hc : n.isCollection) :
    t.ChildrenQuery n ↔ Regular n ∨ ∀ d ∈ t.nodes, ¬ IsChild n d := by
  constructor
  · intro h
    by_cases hreg : Regular n
    · exact .inl hreg
    · exact .inr fun d hd hchild => hreg (t.isChild_of_inCollection hn hd ((h d hd).mpr hchild)).1
  rintro h d hd
  refine ⟨fun hin => (t.isChild_of_inCollection hn hd hin).2, fun hchild => ?_⟩
  rcases h with hreg | hnone
  · obtain ⟨nodeName, c, rfl⟩ := hchild
    refine (inCollection_iff (t.valid n hn) (t.valid _ hd)).mpr ⟨runes nodeName, ?_⟩
    have hpath : (Node.child n nodeName c).path = n.path ++ [nodeName] := rfl
    rw [symbols_eq_append hpath hreg.1 (by simp), hreg.symbols_eq]
    simp [symbolsAfter, Node.belowCollection, hc]
  · exact absurd hchild (hnone d hd)

end

/-- Encoded paths are read back, those of different nodes differ, and the range queries are right for the
nodes that are neither the root nor a child of a collection other than the root, and for those that have
nothing to return. -/
theorem pathQueries (t : Tree) :
    (∀ n ∈ t.nodes, ∃ e, encode n = .ok e ∧ decode e = .ok n.path) ∧
    (∀ n ∈ t.nodes, ∀ m ∈ t.nodes, encode n = encode m → n = m) ∧
    (∀ n ∈ t.nodes, t.SubtreeQuery n ↔ Regular n ∨ t.IsLeaf n) ∧
    ∀ n ∈ t.nodes, n.isCollection → (t.ChildrenQuery n ↔ Regular n ∨ ∀ d ∈ t.nodes, ¬ IsChild n d) := by
  refine ⟨fun n hn => decode_encode (t.valid n hn), fun n hn m hm heq => ?_,
    fun n hn => t.subtreeQuery_iff hn, fun n hn hc => t.childrenQuery_iff hn hc⟩
  obtain ⟨e, he, hde⟩ := decode_encode (t.valid n hn)
  obtain ⟨f, hf, hdf⟩ := decode_encode (t.valid m hm)
  obtain rfl : e = f := Except.ok.inj (he.symm.trans (heq.trans hf))
  exact t.unique n hn m hm (Except.ok.inj (hde.symm.trans hdf))

/-! ### An item of a collection -/

def collection : Node := .child (.root false) "collection" true

def collectionItem : Node := .child collection "item" false

def collectionItemData : Node := .child collectionItem "data" false

def collectionTree : Tree where
  nodes := [.root false, collection, collectionItem, collectionItemData]
  parent p nodeName c h := by
    simp only [mem_cons, collection, collectionItem, collectionItemData, Node.child.injEq, reduceCtorEq,
      not_mem_nil, or_false, false_or] at h ⊢
    rcases h with ⟨rfl, -⟩ | ⟨rfl, -⟩ | ⟨rfl, -⟩ <;> simp
  unique := by decide
  valid := by decide

theorem pathQueries_collection :
    collectionTree.SubtreeQuery collection ∧ collectionTree.ChildrenQuery collection := by
  have h := pathQueries collectionTree
  have hin : collection ∈ collectionTree.nodes := by decide
  exact ⟨(h.2.2.1 collection hin).mpr (.inl (by decide)),
    (h.2.2.2 collection hin (by decide)).mpr (.inl (by decide))⟩

/-- The range of the item does not have its data. -/
theorem collectionItem_subtree :
    collectionItem ∈ collectionTree.nodes ∧ collectionItemData ∈ collectionTree.nodes ∧
    encode collectionItem = .ok "collection#item" ∧ encode collectionItemData = .ok "collection$item$data" ∧
    ¬ collectionTree.SubtreeQuery collectionItem := by
  have hitem : encode collectionItem = .ok "collection#item" := by decide
  have hdata : encode collectionItemData = .ok "collection$item$data" := by decide
  refine ⟨by decide, by decide, hitem, hdata, fun h => ?_⟩
  obtain ⟨e, f, he, hf, -, hlt⟩ := (h collectionItemData (by decide)).mpr (by decide)
  cases he
  cases hf
  exact absurd hlt (by decide)

end FastOrchestration.Chasm.PathEncoder
