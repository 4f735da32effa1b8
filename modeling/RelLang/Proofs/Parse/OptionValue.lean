import RelLang.Proofs.Parse.Lossless
import RelLang.Proofs.Parse.Precedence
import RelLang.Proofs.Parse.Syntax
import RelLang.Proofs.Syntax.Uniform
import RelLang.Proofs.View.Bare
import RelLang.Proofs.View.Numeral
import RelLang.View.Declaration

/-!
# Values of options

The value of an option of an accepted module is a name, a quoted path or a number, and
nothing else stands behind the key. Names and paths are returned as they are written. A
number is read and printed again, so it is returned without zeros in front and a zero
without its sign, and one that does not fit into a signed word is not returned at all.
-/

namespace RelLang

namespace Lexer

/-- A token that needs no end is all of a match of its kind. -/
theorem matches_of_mem_tokenize {text : String} {t : Token} (ht : t ∈ tokenize text)
    (hvalid : t.kind ≠ .invalid) (hcomplete : faultOfOpen? t.kind = none) :
    Matches t.kind t.text.toList := by
  obtain ⟨-, ⟨o, hnext, hkind⟩, -⟩ := (cut_tokenize text).singleton ht
  generalize t.text.toList = w at hnext ⊢
  cases hnext with
  | whole longest _ =>
    rw [hkind]
    exact longest.isMatch
  | closed _ opens _ =>
    rw [hkind] at hcomplete
    cases hcomplete.symm.trans opens
  | unclosed | stray => exact absurd hkind hvalid

/-- A number is one digit or more. -/
theorem digits_of_mem_tokenize {text : String} {t : Token} (ht : t ∈ tokenize text)
    (hkind : t.kind = .number) (negative : Bool) :
    (Numeral.mk negative t.text.toList).WellFormed := by
  have hmatch := matches_of_mem_tokenize ht (by rw [hkind]; decide) (by rw [hkind]; rfl)
  rw [hkind] at hmatch
  generalize t.text.toList = digits at hmatch
  cases hmatch with
  | digits h => exact ⟨h, List.cons_ne_nil _ _⟩

/-- The mark of a sign. -/
theorem minus_of_mem_tokenize {text : String} {t : Token} (ht : t ∈ tokenize text)
    (hkind : t.kind = .punct .minus) : t.text = "-" := by
  have hmatch := matches_of_mem_tokenize ht (by rw [hkind]; decide) (by rw [hkind]; rfl)
  rw [hkind] at hmatch
  generalize hlist : t.text.toList = mark at hmatch
  cases hmatch with
  | mark => exact String.toList_inj.mp hlist

end Lexer

namespace Form

/-- The form stands for tokens only. -/
def Wordy : Form → Prop
  | .nothing | .token _ => True
  | .seq f g | .either f g => Wordy f ∧ Wordy g
  | .many f => Wordy f
  | .ahead choice => ∀ ks, Wordy (choice ks)
  | .node .. | .part _ | .extended .. => False

variable {n : Nat} {f : Form} {ts : List Tree} {behind : List TokenKind}

theorem leavesAll_of_wordy (h : Derives n f ts behind) (hf : Wordy f) :
    Tree.leavesAll ts = Tree.words ts := by
  have hwords : ∀ us vs : List Tree, Tree.words (us ++ vs) = Tree.words us ++ Tree.words vs :=
    fun _ _ => List.filterMap_append
  induction h with
  | nothing | token | stop => rfl
  | seq _ _ ih₁ ih₂ => rw [Tree.leavesAll_append, ih₁ hf.1, ih₂ hf.2, hwords]
  | left _ ih => exact ih hf.1
  | right _ ih => exact ih hf.2
  | round _ _ ih₁ ih₂ => rw [Tree.leavesAll_append, ih₁ hf, ih₂ hf, hwords]
  | ahead _ ih => exact ih (hf _)
  | _ => exact hf.elim

/-- A qualified name has no parts that are nodes. -/
theorem leaves_of_qualName (h : Derives n qualName ts behind) :
    ∃ us, ts = [.node .qualName us] ∧ Tree.leavesAll us = Tree.words us := by
  obtain ⟨us, rfl, hus⟩ := derives_node.mp h
  have hif : ∀ {test : List TokenKind → Bool} {f g : Form}, Wordy f → Wordy g →
      Wordy (given test f g) := by
    intro test f g hf hg ks
    dsimp only
    split
    · exact hf
    · exact hg
  have hlook : ∀ {test : List TokenKind → Bool}, Wordy (look test) := hif trivial trivial
  exact ⟨us, rfl, leavesAll_of_wordy hus
    ⟨hif ⟨trivial, trivial⟩ trivial, trivial, ⟨hlook, trivial, trivial⟩, hlook⟩⟩

/-- What the value of an option consists of. -/
theorem parts_of_optionValue (h : Derives n optionValue ts behind) :
    (∃ us, ts = [.node .qualName us] ∧ Tree.leavesAll us = Tree.words us) ∨
      (∃ path, ts = [.token .filePath path]) ∨ (∃ digits, ts = [.token .number digits]) ∨
      ∃ minus digits, ts = [.token (.punct .minus) minus, .token .number digits] := by
  rw [optionValue, derives_given] at h
  split at h
  · obtain ⟨k, text, hk, rfl⟩ := derives_token.mp h
    obtain rfl | hk := List.mem_cons.mp hk
    · exact .inr (.inl ⟨text, rfl⟩)
    · obtain rfl := List.mem_singleton.mp hk
      exact .inr (.inr (.inl ⟨text, rfl⟩))
  rw [derives_given] at h
  split at h
  · obtain ⟨us, vs, rfl, hus, hvs⟩ := derives_append.mp h
    obtain ⟨k, minus, hk, rfl⟩ := derives_token.mp hus
    obtain ⟨k', digits, hk', rfl⟩ := derives_token.mp hvs
    obtain rfl := List.mem_singleton.mp hk
    obtain rfl := List.mem_singleton.mp hk'
    exact .inr (.inr (.inr ⟨minus, digits, rfl⟩))
  · exact .inl (leaves_of_qualName h)

end Form

/-- The name is the text of its tokens. -/
theorem QualName.text_eq (v : QualName) : v.text = String.join (v.words.map (·.2)) := by
  rw [QualName.text, View.filter_childTokens]

namespace OptionDecl

/-- What stands behind the key. -/
def behindKey (v : OptionDecl) : List Tree := (v.parts.dropWhile (!·.isOf (.only .qualName))).tail

/-- The value as it is written: the texts of the tokens behind the key. -/
def written (v : OptionDecl) : String := String.join ((Tree.leavesAll v.behindKey).map (·.2))

/-- What the value of an option is. A number is returned as it is written if and only if its
magnitude fits into a signed word of 64 bits and it is written as numbers are printed. -/
inductive Valued (v : OptionDecl) : Prop where
  | words (hnumber : v.tokenText? .number = none) (hvalue : v.value = some v.written)
  | number {n : Numeral} (hform : n.WellFormed)
      (hdigits : v.tokenText? .number = some (String.ofList n.digits))
      (hwritten : v.written = n.text)
      (hvalue : v.value = if n.magnitude < 2 ^ 63 then some n.normal.text else none)
      (hplain : v.value = some v.written ↔ n.magnitude < 2 ^ 63 ∧
        (n.digits = ['0'] ∧ n.negative = false ∨ ∃ d ds, n.digits = d :: ds ∧ d ≠ '0'))

variable {v : OptionDecl}

/-- The key is the first name, and all that is behind it is the value. -/
theorem behindKey_eq {word : String} {key rest : List Tree}
    (h : v.parts = .token (.keyword .optionKw) word :: .node .qualName key :: rest) :
    v.behindKey = rest := by
  rw [behindKey, h]
  rfl

theorem written_eq {word : String} {key rest : List Tree}
    (h : v.parts = .token (.keyword .optionKw) word :: .node .qualName key :: rest) :
    v.written = String.join ((Tree.leavesAll rest).map (·.2)) := by
  rw [written, behindKey_eq h]

/-- A name is the value if it is the second one. -/
theorem value_of_name {word : String} {key us : List Tree}
    (h : v.parts = [.token (.keyword .optionKw) word, .node .qualName key, .node .qualName us])
    (hus : Tree.leavesAll us = Tree.words us) : v.value = some v.written := by
  have hall := View.map_bare_all (.only .qualName) v
  have hfilter : v.parts.filter (Tree.isOf (.only .qualName))
      = [.node .qualName key, .node .qualName us] := by
    rw [h]
    rfl
  rw [hfilter] at hall
  have hsecond : ((v.all (.only .qualName))[1]?).map View.bare = some (.node .qualName us) := by
    rw [← List.getElem?_map, hall]
    rfl
  obtain ⟨w, hw, hbare⟩ := Option.map_eq_some_iff.mp hsecond
  have htext : QualName.text w = v.written := by
    rw [QualName.text_eq, View.words, (View.kind_of_bare hbare).2, ← hus, written_eq h]
    simp [Tree.leavesAll, Tree.leaves]
  rw [value, hw, Option.map_some, htext]
  rfl

/-- Without a second name the value is a path or a number. -/
theorem value_of_words {word : String} {key rest : List Tree}
    (h : v.parts = .token (.keyword .optionKw) word :: .node .qualName key :: rest)
    (hrest : rest.filter (Tree.isOf (.only .qualName)) = []) :
    v.value = (v.filePath <|> v.number?.map toString) := by
  have hall := View.map_bare_all (.only .qualName) v
  have hfilter : v.parts.filter (Tree.isOf (.only .qualName)) = [.node .qualName key] := by
    rw [h]
    exact congrArg (.node .qualName key :: ·) hrest
  rw [hfilter] at hall
  have hsecond : (v.all (.only .qualName))[1]? = none := by
    have hmap : ((v.all (.only .qualName))[1]?).map View.bare = none := by
      rw [← List.getElem?_map, hall]
      rfl
    exact Option.map_eq_none_iff.mp hmap
  rw [value, hsecond]
  rfl

/-- What is returned for a number. -/
theorem valued_of_number {word : String} {key rest : List Tree} {n : Numeral}
    (h : v.parts = .token (.keyword .optionKw) word :: .node .qualName key :: rest)
    (hform : n.WellFormed)
    (hrest : rest = [.token .number (String.ofList n.digits)] ∧ n.negative = false ∨
      rest = [.token (.punct .minus) "-", .token .number (String.ofList n.digits)] ∧
        n.negative = true) : v.Valued := by
  have hnodes : rest.filter (Tree.isOf (.only .qualName)) = [] := by
    obtain ⟨rfl, -⟩ | ⟨rfl, -⟩ := hrest <;> rfl
  have hwords : v.words = (.keyword .optionKw, word) :: Tree.words rest := by
    rw [View.words, h]
    rfl
  have hpath : v.filePath = none := by
    rw [View.filePath, View.tokenText?_eq v rfl, hwords]
    obtain ⟨rfl, -⟩ | ⟨rfl, -⟩ := hrest <;> rfl
  have hdigits : v.tokenText? .number = some (String.ofList n.digits) := by
    rw [View.tokenText?_eq v rfl, hwords]
    obtain ⟨rfl, -⟩ | ⟨rfl, -⟩ := hrest <;> rfl
  have hsign : v.hasToken (.punct .minus) = n.negative := by
    rw [View.hasToken_eq v rfl, hwords]
    obtain ⟨rfl, hsign⟩ | ⟨rfl, hsign⟩ := hrest <;> exact hsign.symm
  have hwritten : v.written = n.text := by
    rw [written_eq h, Numeral.text]
    obtain ⟨rfl, hsign⟩ | ⟨rfl, hsign⟩ := hrest <;> rw [hsign]
    all_goals simp [Tree.leavesAll, Tree.leaves]
  have hvalue : v.value = if n.magnitude < 2 ^ 63 then some n.normal.text else none := by
    have hnumber : v.number? = if n.magnitude < 2 ^ 63 then
        some (if n.negative then -(n.magnitude : Int) else n.magnitude) else none := by
      rw [View.number?, hdigits, hsign]
      simp only [Option.bind_eq_bind, Option.bind_some, String.toList_ofList]
      rfl
    rw [value_of_words h hnodes, hpath, hnumber, ← hform.toString_eq]
    split <;> rfl
  refine .number hform hdigits hwritten hvalue ?_
  rw [hvalue, hwritten, ← Numeral.normal_eq_iff]
  split
  · next hfits =>
    rw [Option.some_inj, and_iff_right hfits]
    exact ⟨Numeral.text_injective hform.normal hform, congrArg Numeral.text⟩
  · next hlarge =>
    exact ⟨fun hnone => absurd hnone.symm (Option.some_ne_none _), fun h => absurd h.1 hlarge⟩

/-- The option has a key, its value is all that stands behind the key, and the value is returned as
said. -/
theorem valued_of_embodied (text : String) (h : Form.Embodied .optionDecl v.parts)
    (htokens : ∀ l ∈ Tree.leavesAll v.parts, ∃ t ∈ tokenize text, t.toPair = l) :
    (∃ word key, v.key = some key ∧
      v.parts = .token (.keyword .optionKw) word :: key.bare :: v.behindKey) ∧ v.Valued := by
  obtain ⟨n, behind, hparts⟩ := h _ rfl
  obtain ⟨us, vs, hv, hus, hvs⟩ := Form.derives_row_cons.mp hparts
  obtain ⟨k, word, hk, rfl⟩ := Form.derives_token.mp hus
  obtain rfl := List.mem_singleton.mp hk
  obtain ⟨key, rest, rfl, hkey, hrest⟩ := Form.derives_row_cons.mp hvs
  obtain ⟨key, rfl, -⟩ := Form.leaves_of_qualName hkey
  have hv : v.parts = .token (.keyword .optionKw) word :: .node .qualName key :: rest := hv
  have hleaves : ∀ l ∈ Tree.leavesAll rest, ∃ t ∈ tokenize text, t.toPair = l := by
    intro l hl
    refine htokens l ?_
    rw [hv, Tree.leavesAll, Tree.leavesAll]
    exact List.mem_append_right _ (List.mem_append_right _ hl)
  constructor
  · have hfilter : v.parts.filter (Tree.isOf (.only .qualName))
        = .node .qualName key :: rest.filter (Tree.isOf (.only .qualName)) := by
      rw [hv]
      rfl
    obtain ⟨w, hw, hbare⟩ := View.first_of_parts hfilter
    exact ⟨word, w, hw, by rw [hbare, behindKey_eq hv, hv]⟩
  obtain ⟨us, rfl, hname⟩ | ⟨path, rfl⟩ | ⟨digits, rfl⟩ | ⟨minus, digits, rfl⟩ :=
    Form.parts_of_optionValue hrest
  · refine .words ?_ (value_of_name hv hname)
    rw [View.tokenText?_eq v rfl, View.words, hv]
    rfl
  · have hpath : v.filePath = some path := by
      rw [View.filePath, View.tokenText?_eq v rfl, View.words, hv]
      rfl
    refine .words ?_ ?_
    · rw [View.tokenText?_eq v rfl, View.words, hv]
      rfl
    · rw [value_of_words hv rfl, hpath, written_eq hv]
      simp [Tree.leavesAll, Tree.leaves]
  · obtain ⟨t, ht, htoken⟩ := hleaves (.number, digits) (.head _)
    obtain ⟨hkind, rfl⟩ := Prod.mk.inj htoken
    exact valued_of_number hv (Lexer.digits_of_mem_tokenize ht hkind false)
      (.inl ⟨by rw [String.ofList_toList], rfl⟩)
  · obtain ⟨t, ht, htoken⟩ := hleaves (.punct .minus, minus) (.head _)
    obtain ⟨hkind, rfl⟩ := Prod.mk.inj htoken
    obtain ⟨t', ht', htoken'⟩ := hleaves (.number, digits) (.tail _ (.head _))
    obtain ⟨hkind', rfl⟩ := Prod.mk.inj htoken'
    refine valued_of_number hv (Lexer.digits_of_mem_tokenize ht' hkind' true) (.inr ⟨?_, rfl⟩)
    rw [String.ofList_toList, Lexer.minus_of_mem_tokenize ht hkind]

end OptionDecl

namespace Parse

/-- Every module that is accepted, whatever the configuration, if reports are not dropped: an option
in it is the word `option`, a key, and a value that is returned as it is written, unless it is a
number that is not written as numbers are printed. -/
theorem accepted_option_value (config : ParseConfig) (hkeep : config.maxDiagnostics = none)
    (text : String) (hok : (ofText config .wholeModule text).ok = true) {root : Located}
    (hroot : Located.root? (ofText config .wholeModule text).tree = some root) {v : OptionDecl}
    (hv : v.node ∈ root.descendants) :
    (∃ word key, v.key = some key ∧
      v.parts = .token (.keyword .optionKw) word :: key.bare :: v.behindKey) ∧ v.Valued := by
  obtain ⟨ts, hbare, hts⟩ := derives_of_ok hkeep hok
  have hbelow :
      Tree.Everywhere (fun kind us _ => Form.Embodied kind us) (.node .sourceFile ts) [] :=
    ⟨nofun, Form.embodied_of_derives hts (Form.uniform_ofEntry .wholeModule) []⟩
  have htree : (ofText config .wholeModule text).tree.bare = .node .sourceFile ts := hbare
  have hall : (ofText config .wholeModule text).tree.Everywhere
      (fun kind us _ => Form.Embodied kind (Tree.bareAll us)) [] :=
    Tree.everywhere_of_bare _ (htree ▸ hbelow)
  obtain ⟨hroot, -⟩ := Located.of_root? hroot
  obtain ⟨front, back, hleaves, -, hnode⟩ :=
    Located.everywhere_of_mem_nodesOf root.tree (hroot ▸ hall) hv
  have hkind : .optionDecl = v.node.kind := eq_of_beq v.admitted
  have hparts : Form.Embodied v.node.kind v.parts := hnode
  rw [← hkind] at hparts
  refine OptionDecl.valued_of_embodied text hparts fun l hl => ?_
  have hchild : l ∈ v.node.tree.leaves := by
    rw [View.parts, Tree.leavesAll_bareAll] at hl
    exact (List.mem_filter.mp hl).1
  have hmem : l ∈ (ofText config .wholeModule text).tree.leaves := by
    rw [← List.append_nil (ofText config .wholeModule text).tree.leaves, hroot, hleaves]
    exact List.mem_append_left _ (List.mem_append_right _ hchild)
  rw [ofText, leaves_ofTokens] at hmem
  exact List.mem_map.mp hmem

/-- A key with a path, and a number with a sign. -/
theorem accepted_option_value_signed :
    ∃ (root : Located) (v : OptionDecl), (ofText {} .wholeModule "option a/b -10").ok = true ∧
      Located.root? (ofText {} .wholeModule "option a/b -10").tree = some root ∧
      v.node ∈ root.descendants ∧ (∃ word key, v.key = some key ∧
        v.parts = .token (.keyword .optionKw) word :: key.bare :: v.behindKey) ∧ v.Valued := by
  have hok : (ofText {} .wholeModule "option a/b -10").ok = true := by rw [ofText_eq]; rfl
  have hoption : ((Located.root? (ofText {} .wholeModule "option a/b -10").tree).map fun root =>
      root.descendants.any (·.kind == .optionDecl)) = some true := by rw [ofText_eq]; rfl
  obtain ⟨root, hroot, hany⟩ := Option.map_eq_some_iff.mp hoption
  obtain ⟨n, hn, hkind⟩ := List.any_eq_true.mp hany
  have hadmitted : (Category.only .optionDecl).admits n.kind = true :=
    beq_iff_eq.mpr (eq_of_beq hkind).symm
  exact ⟨root, ⟨n, hadmitted⟩, hok, hroot, hn,
    accepted_option_value {} rfl "option a/b -10" hok hroot hn⟩

/-- Zeros in front of a number are not returned. -/
theorem zeros_not_returned :
    (ofText {} .wholeModule "option x 007").ok = true ∧
      ((Located.root? (ofText {} .wholeModule "option x 007").tree).map fun root =>
        (root.descendants.filterMap (·.as? (.only .optionDecl))).map fun v : OptionDecl =>
          (v.written, v.value)) = some [("007", some "7")] := by
  have hok : (ofText {} .wholeModule "option x 007").ok = true := by rw [ofText_eq]; rfl
  have htree : (ofText {} .wholeModule "option x 007").tree = .node .sourceFile
      [.node .optionDecl [.token (.keyword .optionKw) "option", .token .whitespace " ",
        .node .qualName [.token .ident "x"], .token .whitespace " ",
        .token .number "007"]] := by rw [ofText_eq]; rfl
  rw [htree]
  exact ⟨hok, rfl⟩

end Parse
end RelLang
