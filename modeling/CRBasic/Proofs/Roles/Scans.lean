import CRBasic.Proofs.Diagnostics
import CRBasic.Proofs.Lexer.Reader
import CRBasic.Proofs.Roles.Units

/-!
# The units of scans in trees

Whether the second argument of a scan is a name is told ahead, by the two words that are next, and the truth
about it by the tree.  The two agree but where nothing follows a name in its list (`units_told_ahead`).
-/

namespace CRBasic

open Parsing

/-! ### Places of problems -/

section Places

variable {n : Nat} {us vs : List Lexeme} {x : Lexeme} {r : ByteRange}

/-- A word among the first ones of a text is among the first bytes. -/
theorem Word.exists_range_of_lt (vs : List Lexeme) (h : n < (Lexeme.words us).length) : ∃ r,
    (rangesFrom 0 (us ++ vs))[n]? = some r ∧ r.start ≤ r.stop ∧
      r.stop ≤ byteLength (Lexeme.joined us) := by
  have hlt : n < (rangesFrom 0 us).length := by rwa [length_rangesFrom 0 true, length_ofLexemes]
  have hbounds := rangesFrom_bounds 0 us _ (List.getElem_mem hlt)
  rw [Nat.zero_add] at hbounds
  refine ⟨(rangesFrom 0 us)[n], ?_, hbounds⟩
  rw [rangesFrom_append, List.getElem?_append_left hlt, List.getElem?_eq_getElem hlt]

/-- A word behind the first ones of a text is behind the first bytes. -/
theorem Word.le_start_of_le (h : (Lexeme.words us).length ≤ n)
    (hr : (rangesFrom 0 (us ++ vs))[n]? = some r) : byteLength (Lexeme.joined us) ≤ r.start := by
  have hle : (rangesFrom 0 us).length ≤ n := by rwa [length_rangesFrom 0 true, length_ofLexemes]
  rw [rangesFrom_append, List.getElem?_append_right hle] at hr
  rw [← Nat.zero_add (byteLength _)]
  exact (ordered_rangesFrom _ vs).2 r (List.mem_of_getElem? hr)

namespace Edge

variable {e : Edge} {xs : List Lexeme}

theorem offsetIn_startAfter (h : (Word.rangesFrom 0 xs)[n]? = some r) :
    (startAfter n).offsetIn xs = r.start := by
  simp [offsetIn, offset, h]

theorem offsetIn_endOf_succ (h : (Word.rangesFrom 0 xs)[n]? = some r) :
    (endOf (n + 1)).offsetIn xs = r.stop := by
  simp [offsetIn, offset, h]

/-- An edge behind at most the words of some lexemes is not behind these, unless it is where the next word
starts. -/
theorem offsetIn_le_of_count_le (vs : List Lexeme) (h : e.count ≤ (Lexeme.words us).length) :
    e.offsetIn (us ++ vs) ≤ byteLength (Lexeme.joined us) ∨ e = .startAfter (Lexeme.words us).length := by
  cases e with
  | startAfter n =>
    change n ≤ _ at h
    rcases Nat.lt_or_eq_of_le h with hn | hn
    · obtain ⟨r, hr, hle, hle'⟩ := Word.exists_range_of_lt vs hn
      rw [offsetIn_startAfter hr]
      exact .inl (Nat.le_trans hle hle')
    · exact .inr (congrArg startAfter hn)
  | endOf n =>
    cases n with
    | zero => exact .inl (Nat.zero_le _)
    | succ n =>
      obtain ⟨r, hr, -, hle⟩ := Word.exists_range_of_lt vs h
      rw [offsetIn_endOf_succ hr]
      exact .inl hle

/-- An edge that is not behind a word is not behind its start. -/
theorem offsetIn_le_start (hx : x.kind.isTrivia = false) (h : e.count ≤ (Lexeme.words us).length) :
    e.offsetIn (us ++ x :: vs) ≤ byteLength (Lexeme.joined us) := by
  rcases offsetIn_le_of_count_le (x :: vs) h with h | rfl
  · exact h
  · rw [offsetIn_startAfter (Word.getElem?_rangesFrom 0 us hx vs)]
    simp [Lexeme.token]

theorem le_offsetIn_startAfter (vs : List Lexeme) (h : (Lexeme.words us).length ≤ n) :
    byteLength (Lexeme.joined us) ≤ (startAfter n).offsetIn (us ++ vs) := by
  cases hr : (Word.rangesFrom 0 (us ++ vs))[n]? with
  | none => simp [offsetIn, offset, hr, Lexeme.joined_append]
  | some r =>
    rw [offsetIn_startAfter hr]
    exact Word.le_start_of_le h hr

theorem le_offsetIn_endOf (vs : List Lexeme) (h : (Lexeme.words us).length ≤ n) :
    byteLength (Lexeme.joined us) ≤ (endOf (n + 1)).offsetIn (us ++ vs) := by
  cases hr : (Word.rangesFrom 0 (us ++ vs))[n]? with
  | none => simp [offsetIn, offset, hr, Lexeme.joined_append]
  | some r =>
    rw [offsetIn_endOf_succ hr]
    exact Nat.le_trans (Word.le_start_of_le h hr)
      (Word.rangesFrom_bounds 0 _ r (List.mem_of_getElem? hr)).1

/-- An edge that is behind more words than some lexemes have is behind these. -/
theorem le_offsetIn (vs : List Lexeme) (h : (Lexeme.words us).length < e.count) :
    byteLength (Lexeme.joined us) ≤ e.offsetIn (us ++ vs) := by
  cases e with
  | startAfter n => exact le_offsetIn_startAfter vs (Nat.le_of_lt h)
  | endOf n =>
    obtain ⟨n, rfl⟩ := Nat.exists_eq_succ_of_ne_zero (Nat.ne_zero_of_lt h)
    exact le_offsetIn_endOf vs (Nat.le_of_lt_succ h)

/-- An edge that is behind a word is not before its end. -/
theorem stop_le_offsetIn (hx : x.kind.isTrivia = false) (h : (Lexeme.words us).length < e.count) :
    byteLength (Lexeme.joined us) + byteLength x.text ≤ e.offsetIn (us ++ x :: vs) := by
  have hxs : us ++ x :: vs = (us ++ [x]) ++ vs := by simp
  have hbytes : byteLength (Lexeme.joined us) + byteLength x.text =
      byteLength (Lexeme.joined (us ++ [x])) := by simp [Lexeme.joined]
  have hcount : (Lexeme.words (us ++ [x])).length = (Lexeme.words us).length + 1 := by
    simp [Lexeme.words, hx]
  cases e with
  | startAfter n =>
    rw [hbytes, hxs]
    exact le_offsetIn_startAfter vs (hcount ▸ h)
  | endOf n =>
    obtain ⟨n, rfl⟩ := Nat.exists_eq_succ_of_ne_zero (Nat.ne_zero_of_lt h)
    rcases Nat.lt_or_eq_of_le (Nat.le_of_lt_succ h) with hn | rfl
    · rw [hbytes, hxs]
      exact le_offsetIn_endOf vs (hcount ▸ hn)
    · rw [Nat.succ_eq_add_one, offsetIn_endOf_succ (Word.getElem?_rangesFrom 0 us hx vs)]
      simp [Lexeme.token]

end Edge

/-- A word that starts no line is at a place, and the words before it end at an offset or before. -/
inductive Lexeme.NextOnLine (xs : List Lexeme) (offset place : Nat) : Prop where
  | intro {n : Nat} {w : Word} {r : ByteRange} (hw : (Word.ofLexemes true xs)[n]? = some w)
      (hline : w.startsLine = false) (hr : (Word.rangesFrom 0 xs)[n]? = some r) (hplace : r.start = place)
      (hbefore : ∀ q ∈ (Word.rangesFrom 0 xs).take n, q.stop ≤ offset) : NextOnLine xs offset place

/-- A problem is reported that starts at `a` or behind it, and at `b` or before it, or at the next word behind
`b` on the line. -/
def Reported (options : ParseOptions) (source : List Char) (cause : Cause) (a b : Nat) : Prop :=
  ∃ d ∈ (parseWith options source).diagnostics, d.cause = cause ∧ a ≤ d.range.start ∧
    (d.range.start ≤ b ∨ Lexeme.NextOnLine (lexemes source) b d.range.start)

variable {options : ParseOptions} {source : List Char} {cause : Cause} {m a : Nat} {us' vs' : List Lexeme}

theorem reported_iff {b : Nat} (hcause : cause.kind = .grammatical) :
    Reported options source cause a b ↔
      ∃ r ∈ reports options (Word.ofLexemes true (lexemes source)), r.cause = cause ∧
        a ≤ r.start.offsetIn (lexemes source) ∧ (r.start.offsetIn (lexemes source) ≤ b ∨
          Lexeme.NextOnLine (lexemes source) b (r.start.offsetIn (lexemes source))) := by
  constructor
  · rintro ⟨d, hd, hcause', hplace⟩
    obtain ⟨r, hr, hcause', hrange⟩ := (exists_diagnostic_iff hcause).1 ⟨d, hd, hcause', rfl⟩
    rw [← hrange, Report.rangeIn_eq] at hplace
    exact ⟨r, hr, hcause', hplace⟩
  · rintro ⟨r, hr, hcause', hplace⟩
    obtain ⟨d, hd, hcause', hrange⟩ := (exists_diagnostic_iff hcause).2 ⟨r, hr, hcause', rfl⟩
    refine ⟨d, hd, hcause', ?_⟩
    rwa [hrange, Report.rangeIn_eq]

/-- The word behind so many others, if it starts no line, is the next one on the line. -/
theorem Lexeme.nextOnLine_of_here {e : Edge} (he : e = .startAfter (words us).length)
    (hhere : e.Here (Word.ofLexemes true (us ++ vs))) :
    NextOnLine (us ++ vs) (byteLength (joined us)) (e.offsetIn (us ++ vs)) := by
  obtain ⟨w, hw, hline⟩ := hhere _ he
  have hlt : (words us).length < (Word.rangesFrom 0 (us ++ vs)).length := by
    rw [Word.length_rangesFrom 0 true]
    exact (List.getElem?_eq_some_iff.1 hw).1
  have hr := List.getElem?_eq_getElem hlt
  refine .intro hw hline hr ?_ fun q hq => ?_
  · rw [he, Edge.offsetIn_startAfter hr]
  · have hlength : (Word.rangesFrom 0 us).length = (words us).length := by
      rw [Word.length_rangesFrom 0 true, Word.length_ofLexemes]
    rw [Word.rangesFrom_append, List.take_left' hlength] at hq
    simpa using (Word.rangesFrom_bounds 0 us q hq).2

/-- What is reported among the words of a text is reported among its bytes. -/
theorem Report.Among.reported {b : Nat}
    (h : Among (Word.ofLexemes true (lexemes source)) (reports options (Word.ofLexemes true (lexemes source)))
      cause m n) (hcause : cause.kind = .grammatical)
    (ha : ∀ e : Edge, m ≤ e.count → a ≤ e.offsetIn (lexemes source))
    (hxs : lexemes source = us ++ vs) (hn : n ≤ (Lexeme.words us).length)
    (hb : byteLength (Lexeme.joined us) = b) : Reported options source cause a b := by
  obtain ⟨r, hr, hcause', hle, hle', hhere⟩ := h
  refine (reported_iff hcause).2 ⟨r, hr, hcause', ha _ hle, ?_⟩
  rw [hxs, ← hb]
  refine (Edge.offsetIn_le_of_count_le vs (Nat.le_trans hle' hn)).imp_right fun he => ?_
  exact Lexeme.nextOnLine_of_here he (hxs ▸ hhere)

/-- A word behind another one starts behind its end. -/
theorem Word.stop_le_of_words {xs : List Lexeme} {y : Lexeme} (hxs : xs = us ++ x :: vs)
    (hx : x.kind.isTrivia = false) (hxs' : xs = us' ++ y :: vs') (hy : y.kind.isTrivia = false)
    (hwords : (Lexeme.words us).length < (Lexeme.words us').length) :
    byteLength (Lexeme.joined us) + byteLength x.text ≤ byteLength (Lexeme.joined us') := by
  have hrange := getElem?_rangesFrom 0 us' hy vs'
  rw [← hxs', Nat.zero_add] at hrange
  have hcount : (Lexeme.words us).length < (Edge.startAfter (Lexeme.words us').length).count := hwords
  have hstop : _ ≤ (Edge.startAfter (Lexeme.words us').length).offsetIn (us ++ x :: vs) :=
    Edge.stop_le_offsetIn hx hcount
  rw [← hxs, Edge.offsetIn_startAfter hrange] at hstop
  exact hstop

/-- The next word on the line is at the start of a word that does not end before, or before it. -/
theorem Lexeme.NextOnLine.le {xs : List Lexeme} {y : Lexeme} {offset place : Nat}
    (h : NextOnLine xs offset place) (hxs : xs = us ++ y :: vs) (hy : y.kind.isTrivia = false)
    (hoffset : offset < byteLength (joined us) + byteLength y.text) : place ≤ byteLength (joined us) := by
  obtain ⟨-, -, hr, rfl, hbefore⟩ := h
  rename_i n _ r
  have hrange := Word.getElem?_rangesFrom 0 us hy vs
  rw [← hxs, Nat.zero_add] at hrange
  rw [← Edge.offsetIn_startAfter hr, hxs]
  refine Edge.offsetIn_le_start hy (Nat.le_of_not_lt fun hlt => ?_)
  change _ < n at hlt
  have htake : ((Word.rangesFrom 0 xs).take n)[(words us).length]? =
      some (y.token (byteLength (joined us))).range := by
    rw [List.getElem?_take_of_lt hlt, hrange]
  have hstop : byteLength (joined us) + byteLength y.text ≤ offset :=
    hbefore _ (List.mem_of_getElem? htake)
  omega

/-- A problem that is reported behind a word and no later than at the next one is behind as many words. -/
theorem count_eq_of_reported {e : Edge} {y : Lexeme} (hxs : lexemes source = us ++ x :: vs)
    (hx : x.kind.isTrivia = false) (hxs' : lexemes source = us' ++ y :: vs') (hy : y.kind.isTrivia = false)
    (hwords : (Lexeme.words us').length = (Lexeme.words us).length + 1)
    (hle : byteLength (Lexeme.joined us) + byteLength x.text ≤ e.offsetIn (lexemes source))
    (hplace : e.offsetIn (lexemes source) ≤ byteLength (Lexeme.joined us) + byteLength x.text ∨
      Lexeme.NextOnLine (lexemes source) (byteLength (Lexeme.joined us) + byteLength x.text)
        (e.offsetIn (lexemes source))) : e.count = (Lexeme.words us').length := by
  have hpos {z : Lexeme} (hz : z ∈ lexemes source) : 0 < byteLength z.text := by
    have hlength := length_le_byteLength z.text
    have hne := List.length_pos_iff.2 (text_ne_nil_of_mem_lexemes hz)
    omega
  have hxpos : 0 < byteLength x.text := hpos (by simp [hxs])
  have hypos : 0 < byteLength y.text := hpos (by simp [hxs'])
  have hgap := Word.stop_le_of_words hxs hx hxs' hy (hwords ▸ Nat.lt_succ_self _)
  have hnext : e.offsetIn (lexemes source) ≤ byteLength (Lexeme.joined us') := by
    rcases hplace with h | h
    · exact Nat.le_trans h hgap
    · exact h.le hxs' hy (by omega)
  refine Nat.le_antisymm (Nat.le_of_not_lt fun hlt => ?_) (Nat.le_of_not_lt fun hlt => ?_)
  · rw [hxs'] at hnext
    have hstop := Nat.le_trans (Edge.stop_le_offsetIn hy hlt) hnext
    omega
  · rw [hxs] at hle
    rw [hwords] at hlt
    have hstart := Nat.le_trans hle (Edge.offsetIn_le_start hx (Nat.le_of_lt_succ hlt))
    omega

end Places

/-! ### Names among elements -/

namespace Element

/-- Elements without blanks, line breaks and comments. -/
def written (es : List Element) : List Element := es.filter fun e => !e.kind.isTrivia

end Element

theorem Node.mem_elements {n m : Node} (h : m ∈ n.childNodes) : .node m ∈ n.elements := by
  obtain ⟨e, he, hnode⟩ := List.mem_filterMap.1 h
  cases e with
  | leaf x => cases hnode
  | node m' =>
    obtain rfl : m' = m := Option.some.inj hnode
    exact he

/-- A node is an identifier of one name. -/
def Node.isBareName (n : Node) : Bool :=
  n.kind == .identifier && match Element.written n.elements with
    | [.leaf x] => x.kind == .ident
    | _ => false

/-- Elements of a list start with one name that something follows. -/
def Element.namesUnits (es : List Element) : Bool :=
  match written es with
  | .node n :: .leaf _ :: _ => n.isBareName
  | _ => false

namespace Element

variable {es : List Element} {p : Piece Draft} {ps closing : List (Piece Draft)} {n : Node} {d : Draft}
  {second? : Option Draft}

theorem ShowAll.written_nil (h : ShowAll es []) : written es = [] := by
  refine List.filter_eq_nil_iff.2 fun e he => ?_
  rcases h.of_mem he with ⟨x, rfl, hx⟩ | ⟨x, w, -, hw, -⟩ | ⟨n, d, -, hd, -⟩
  · simp [kind, ElementKind.isTrivia, hx]
  · cases hw
  · cases hd

theorem ShowAll.written_cons (h : ShowAll es (p :: ps)) :
    ∃ e more, written es = e :: written more ∧ ShowAll [e] [p] ∧ ShowAll more ps := by
  obtain ⟨us, e, more, rfl, hus, he, hmore⟩ := h.exists_cons
  refine ⟨e, more, ?_, he, hmore⟩
  have hkept : (!e.kind.isTrivia) = true := by
    cases he with
    | trivia _ hnil => cases hnil
    | word hx => simp [kind, ElementKind.isTrivia, hx]
    | node => rfl
  rw [written, List.filter_append, ← written, hus.written_nil, List.nil_append]
  exact List.filter_cons_of_pos hkept

/-- A leaf is all that is written where one word is shown. -/
theorem ShowAll.eq_word {x : Leaf} (h : ShowAll es ps) (hes : written es = [.leaf x]) :
    ∃ w : Word, w.kind = x.kind ∧ ps = [.word w] := by
  cases ps with
  | nil => cases h.written_nil.symm.trans hes
  | cons p ps =>
    obtain ⟨e, more, hwritten, he, hmore⟩ := h.written_cons
    obtain ⟨rfl, hnil⟩ := List.cons.inj (hwritten.symm.trans hes)
    cases ps with
    | cons q qs =>
      obtain ⟨e', more', hwritten', -, -⟩ := hmore.written_cons
      cases hnil.symm.trans hwritten'
    | nil =>
      cases he with
      | trivia _ hnil => cases hnil
      | @word _ w _ _ _ hlexeme _ => exact ⟨w, (congrArg Lexeme.kind hlexeme).symm, rfl⟩

/-- Only a node of one name shows one. -/
theorem isBareName_iff (hn : (Tree.node n.kind n.children).Shows d) :
    n.isBareName = true ↔ ∃ w : Word, w.kind = .ident ∧ d = .node .identifier [.word w] := by
  have hkind : n.kind = d.kind := ElementKind.node.inj hn.kind_eq
  obtain ⟨children, hnode, hchildren⟩ := hn.exists_children
  obtain ⟨-, rfl⟩ := Tree.node.inj hnode
  have hshow : ShowAll n.elements d.pieces := showAll_ofTrees hchildren _
  constructor
  · intro h
    obtain ⟨hidentifier, hname⟩ := Bool.and_eq_true_iff.1 h
    rw [beq_iff_eq, hkind] at hidentifier
    split at hname
    · next x hes =>
      obtain ⟨w, hw, hpieces⟩ := hshow.eq_word hes
      refine ⟨w, hw.trans (beq_iff_eq.1 hname), ?_⟩
      cases d with
      | node kind parts =>
        obtain rfl : kind = .identifier := hidentifier
        exact congrArg _ hpieces
      | around kind first parts => cases hpieces
    · cases hname
  · rintro ⟨w, hw, rfl⟩
    obtain ⟨e, more, hes, he, hmore⟩ := hshow.written_cons
    rw [hmore.written_nil] at hes
    cases he with
    | trivia _ hnil => cases hnil
    | @word x _ _ _ hx hlexeme _ =>
      have hxkind : x.kind = .ident := (congrArg Lexeme.kind hlexeme).trans hw
      simp [Node.isBareName, hkind, Draft.kind, hes, hxkind]

/-- Elements start with one name that something follows if the parts do that they show. -/
theorem namesUnits_iff (h : ShowAll es (second?.toList.map .node ++ closing))
    (hclosing : ∀ p more, closing = p :: more → ∃ w, p = .word w) :
    namesUnits es = true ↔ Grammar.NamesUnits second? closing := by
  have hword {es : List Element} {p : Piece Draft} {more : List (Piece Draft)} (hp : closing = p :: more)
      (h : ShowAll es closing) : ∃ x rest, written es = .leaf x :: rest := by
    obtain ⟨w, rfl⟩ := hclosing p more hp
    rw [hp] at h
    obtain ⟨e, rest, hes, he, -⟩ := h.written_cons
    cases he with
    | trivia _ hnil => cases hnil
    | @word x => exact ⟨x, _, hes⟩
  cases second? with
  | none =>
    have hnot : namesUnits es = false := by
      cases hp : closing with
      | nil =>
        have h : ShowAll es [] := hp ▸ h
        simp [namesUnits, h.written_nil]
      | cons p more =>
        obtain ⟨x, rest, hes⟩ := hword hp h
        simp [namesUnits, hes]
    simp [hnot, Grammar.NamesUnits]
  | some d =>
    have h : ShowAll es (.node d :: closing) := h
    obtain ⟨e, rest, hes, he, hrest⟩ := h.written_cons
    cases he with
    | trivia _ hnil => cases hnil
    | @node n _ _ _ hn _ =>
      cases hp : closing with
      | nil =>
        have hrest : ShowAll rest [] := hp ▸ hrest
        simp [namesUnits, hes, hrest.written_nil, Grammar.NamesUnits]
      | cons p more =>
        obtain ⟨x, rest', hes'⟩ := hword hp hrest
        have hnames : namesUnits es = n.isBareName := by rw [namesUnits, hes, hes']
        rw [hnames, isBareName_iff hn]
        simp [Grammar.NamesUnits]

end Element

/-! ### Scans in trees -/

namespace Grammar

variable {words : List Word} {problems : List Report} {n : Nat} {es behind : List Element} {comma : Leaf}

theorem Arises.exists_list {d : Draft} (h : Arises words problems n d)
    (hkind : d.kind = .scanStmt ∨ d.kind = .subScanStmt) :
    ∃ (w : Word) (list? : Option (List (Piece Draft))) (more : List (Piece Draft)),
      d.pieces = .word w :: (list?.toList.map listDraft ++ more) ∧
      (∀ qs ∈ list?, ScanList words problems (n + 1) qs) ∧
      ∀ d, .node d ∈ more → d.kind ≠ .argList := by
  cases h with
  | scan _ h => exact h.exists_list
  | loop => rcases hkind with h | h <;> cases h
  | conditional => rcases hkind with h | h <;> cases h
  | number => rcases hkind with h | h <;> cases h
  | operation _ _ hbinary => rcases hkind with h | h <;> cases h.symm.trans hbinary
  | other hother => rcases hkind with h | h <;> rw [h] at hother <;> rcases hother with h | h <;> cases h

/-- What is behind the first comma of the list of a scan, and what is reported of it. -/
theorem ScanList.exists_units {qs : List (Piece Draft)} (h : ScanList words problems n qs)
    (hes : Element.ShowAll es qs) (hsplit : es.dropWhile (!·.isLeaf .comma) = .leaf comma :: behind) :
    ∃ us, es = us ++ .leaf comma :: behind ∧ comma.kind.isTrivia = false ∧
      ∀ m, m = n + (Lexeme.words (us.flatMap Element.lexemes)).length + 1 →
        (Element.namesUnits behind = true → Word.closedName (words.drop m) = true) ∧
        (Element.namesUnits behind = false → Report.Among words problems .scanUnitsNotName m m ∨
          Report.Among words problems .nestingTooDeep (n + 1)
            (n + (Lexeme.words (es.flatMap Element.lexemes)).length)) := by
  have hskip {us : List Element} {ps : List (Piece Draft)} (hus : Element.ShowAll us ps)
      (hps : ∀ w, .word w ∈ ps → w.kind ≠ .comma) : ∀ e ∈ us, (!e.isLeaf .comma) = true := by
    intro e he
    rw [hus.isLeaf_eq_false rfl hps e he]
    rfl
  cases h with
  | few hps =>
    rw [List.dropWhile_eq_nil_iff.2 (hskip hes hps)] at hsplit
    cases hsplit
  | @more before closing w second? m hbefore hw hclosing hm hnamed hreported =>
    obtain ⟨us, x, vs, rfl, hx, hlexeme, hus, hvs⟩ := hes.exists_word
    have hcomma : (Element.leaf x).isLeaf .comma = true := by
      have hkind : x.kind = .comma := (congrArg Lexeme.kind hlexeme).trans hw
      simp [Element.isLeaf, Element.kind, hkind]
    rw [List.dropWhile_append_of_pos (hskip hus hbefore), List.dropWhile_cons_of_neg (by simp [hcomma])]
      at hsplit
    obtain ⟨hleaf, rfl⟩ := List.cons.inj hsplit
    cases hleaf
    have hplace : n + (Lexeme.words (us.flatMap Element.lexemes)).length + 1 = m := by
      rw [hm, hus.length_words, Draft.wordsOfAll_append, List.length_append]
      rfl
    have hend : m + (Draft.wordsOfAll (second?.toList.map .node ++ closing)).length =
        n + (Lexeme.words ((us ++ .leaf comma :: vs).flatMap Element.lexemes)).length := by
      rw [hes.length_words, hm]
      simp only [Draft.wordsOfAll_append, Draft.wordsOfAll, List.length_append, List.length_cons,
        List.length_nil]
      omega
    refine ⟨us, rfl, hx, ?_⟩
    rintro _ rfl
    rw [hplace, Element.namesUnits_iff hvs hclosing, ← Bool.not_eq_true, Element.namesUnits_iff hvs hclosing,
      ← hend]
    exact ⟨hnamed, hreported⟩

end Grammar

/-- The list of a scan shows its arguments. -/
theorem Node.exists_scanList {options : ParseOptions} {source : List Char} {n : Node}
    (hn : n ∈ (parseWith options source).tree.nodes 0) (hkind : n.kind = .scanStmt ∨ n.kind = .subScanStmt)
    {list : View .argList} (hlist : .node list.node ∈ n.elements) :
    ∃ front qs, list.node.Stands 0 (lexemes source) front (.node .argList qs) ∧
      Grammar.ScanList (Word.ofLexemes true (lexemes source))
        (reports options (Word.ofLexemes true (lexemes source))) (Lexeme.words front).length qs := by
  obtain ⟨d, front, hstands, harises⟩ := exists_arises options source hn
  obtain ⟨w, list?, more, hpieces, hscan, hmore⟩ := harises.exists_list (hstands.kind_eq ▸ hkind)
  have hshow := hstands.showAll
  rw [hpieces] at hshow
  have hisList : (Element.node list.node).isNode .argList = true := by
    simp [Element.isNode, Element.kind, list.kind_eq]
  cases list? with
  | none =>
    have hnone : ∀ e ∈ n.elements, e.isNode .argList = false :=
      hshow.isNode_eq_false fun d hd => hmore d (by simpa using hd)
    cases hisList.symm.trans (hnone _ hlist)
  | some qs =>
    have hshow : Element.ShowAll n.elements ([.word w] ++ .node (.node .argList qs) :: more) := hshow
    obtain ⟨us, m, vs, hes, hm, hus, hvs⟩ := hshow.exists_node
    have hlist' : Element.node list.node = .node m := by
      rw [hes] at hlist
      rcases List.mem_append.1 hlist with hlist | hlist
      · cases hisList.symm.trans (hus.isNode_eq_false (by simp) _ hlist)
      · refine (List.mem_cons.1 hlist).resolve_right fun hlist => ?_
        cases hisList.symm.trans (hvs.isNode_eq_false hmore _ hlist)
    obtain rfl := Element.node.inj hlist'
    refine ⟨_, qs, hstands.part hes hm, ?_⟩
    rw [Lexeme.words_append, List.length_append, hus.length_words]
    exact hscan qs rfl

section Units

variable {options : ParseOptions} {source : List Char} {n : Node} {list : View .argList} {comma : Leaf}
  {behind : List Element} {us vs : List Lexeme}

/-- The first comma in the list of a scan stands in the text in front of the units. -/
theorem Node.exists_units (hn : n ∈ (parseWith options source).tree.nodes 0)
    (hkind : n.kind = .scanStmt ∨ n.kind = .subScanStmt) (hlist : .node list.node ∈ n.elements)
    (hsplit : list.node.elements.dropWhile (!·.isLeaf .comma) = .leaf comma :: behind) :
    ∃ us vs, lexemes source = us ++ comma.lexeme :: vs ∧ comma.lexeme.kind.isTrivia = false ∧
      comma.range.stop = byteLength (Lexeme.joined us) + byteLength comma.text ∧
      (Element.namesUnits behind = true →
        Word.closedName ((Word.ofLexemes true (lexemes source)).drop ((Lexeme.words us).length + 1)) = true) ∧
      (Element.namesUnits behind = false →
        Report.Among (Word.ofLexemes true (lexemes source))
          (reports options (Word.ofLexemes true (lexemes source))) .scanUnitsNotName
          ((Lexeme.words us).length + 1) ((Lexeme.words us).length + 1) ∨
        Reported options source .nestingTooDeep list.node.range.start list.node.range.stop) := by
  obtain ⟨front, qs, hstands, hscan⟩ := Node.exists_scanList hn hkind hlist
  obtain ⟨us, hes, hcomma, hunits⟩ := hscan.exists_units hstands.showAll hsplit
  obtain ⟨⟨vs, hvs⟩, hstart⟩ := hstands.exists_back hes
  have hlexemes : list.node.elements.flatMap Element.lexemes = Tree.leavesOfAll list.node.children :=
    Element.flatMap_lexemes _ _
  rw [hlexemes] at hunits
  obtain ⟨hnamed, hreported⟩ := hunits (Lexeme.words (front ++ us.flatMap Element.lexemes)).length.succ
    (by rw [Lexeme.words_append, List.length_append])
  refine ⟨front ++ us.flatMap Element.lexemes, vs, by simp [hvs, Element.lexemes], hcomma, ?_, hnamed,
    fun hnot => (hreported hnot).imp_right fun hnested => ?_⟩
  · have hplace : comma.range.start = 0 + _ := hstart
    rw [Nat.zero_add] at hplace
    rw [← hplace]
    rfl
  · -- Where an expression of the list is too deep, that is reported in the list.
    obtain ⟨back, hback⟩ := hstands.leaves
    have hstart : list.node.range.start = byteLength (Lexeme.joined front) :=
      hstands.start_eq.trans (Nat.zero_add _)
    have hstop : list.node.range.stop = list.node.range.start + Tree.widthOfAll list.node.children := rfl
    refine hnested.reported rfl (fun e he => ?_) hback ?_ ?_
    · rw [hstart, hback, List.append_assoc]
      exact Edge.le_offsetIn _ he
    · rw [Lexeme.words_append, List.length_append]
    · rw [hstop, hstart, Tree.widthOfAll_eq, Lexeme.joined_append, byteLength_append]

/-- Units are not reported behind a comma that a name follows and then what ends an argument. -/
theorem not_reported_of_closedName (hxs : lexemes source = us ++ comma.lexeme :: vs)
    (hcomma : comma.lexeme.kind.isTrivia = false)
    (hclosed : Word.closedName ((Word.ofLexemes true (lexemes source)).drop ((Lexeme.words us).length + 1)) =
      true) {a : Nat} (ha : a = byteLength (Lexeme.joined us) + byteLength comma.text) :
    ¬ Reported options source .scanUnitsNotName a a := by
  intro hreported
  obtain ⟨r, hr, hcause, hle, hplace⟩ := (reported_iff rfl).1 hreported
  obtain ⟨parts, hreads, -⟩ := exists_readsAs options (Word.ofLexemes true (lexemes source))
  have hopen := unnamed_of_readsAs hreads hr hcause
  -- The name behind the comma is the next word, and the problem is reported behind as many.
  obtain ⟨w, x, more, hwords, -⟩ := Word.closedName_iff.1 hclosed
  have hlt : (Lexeme.words us).length + 1 < (Word.rangesFrom 0 (lexemes source)).length := by
    have hlength := congrArg List.length hwords
    rw [List.length_drop, List.length_cons] at hlength
    rw [Word.length_rangesFrom 0 true]
    omega
  obtain ⟨us', y, vs', hxs', hy, hcount, -⟩ :=
    Word.exists_of_getElem?_rangesFrom (List.getElem?_eq_getElem hlt)
  have hcount' := count_eq_of_reported hxs hcomma hxs' hy hcount (ha ▸ hle) (ha ▸ hplace)
  rw [hcount', hcount, hclosed] at hopen
  cases hopen

/-- Units that are reported behind a comma, before the next word is taken. -/
theorem reported_of_among (hxs : lexemes source = us ++ comma.lexeme :: vs)
    (hcomma : comma.lexeme.kind.isTrivia = false) {a : Nat}
    (h : Report.Among (Word.ofLexemes true (lexemes source))
      (reports options (Word.ofLexemes true (lexemes source))) .scanUnitsNotName
      ((Lexeme.words us).length + 1) ((Lexeme.words us).length + 1))
    (ha : byteLength (Lexeme.joined us) + byteLength comma.text = a) :
    Reported options source .scanUnitsNotName a a := by
  have hword : Lexeme.words [comma.lexeme] = [comma.lexeme] := by simp [Lexeme.words, hcomma]
  have hxs' : lexemes source = (us ++ [comma.lexeme]) ++ vs := by rw [hxs, List.append_assoc]; rfl
  refine h.reported rfl (fun e he => ?_) hxs' ?_ ?_
  · rw [← ha, hxs]
    exact Edge.stop_le_offsetIn hcomma he
  · rw [Lexeme.words_append, List.length_append, hword]
    rfl
  · rw [← ha, Lexeme.joined_append, byteLength_append, Lexeme.joined_cons, Lexeme.joined_nil, List.append_nil]
    rfl

end Units

/-- Behind a word that was taken, and where the nesting leaves room, an argument counts as a name if and only if
it becomes an identifier of one word and a comma or a closing parenthesis follows on the line.  So the units of
a scan are reported, behind the comma, if and only if they are no such name, unless it is reported in the list
that an expression is too deep: a name that nothing follows in its list is reported too. -/
theorem units_told_ahead (options : ParseOptions) (source : List Char) :
    (∀ (fuel : Nat) (s t : State) (a : Grammar.Argument), s.latest = none →
      Grammar.argument.run (Script.runRule Grammar.script fuel) fuel s = some (a, t) →
      (a.isName = true ∧ s.tooDeep = false ↔
        t.events.toList = s.events.toList ++ [.start .identifier none, .token .ident, .finish] ∧
          (t.onLine = some .comma ∨ t.onLine = some .rParen))) ∧
    ∀ n ∈ (parseWith options source).tree.nodes 0, n.kind = .scanStmt ∨ n.kind = .subScanStmt →
      ∀ (list : View .argList) (comma : Leaf) (behind : List Element), .node list.node ∈ n.elements →
        list.node.elements.dropWhile (!·.isLeaf .comma) = .leaf comma :: behind →
          (Reported options source .scanUnitsNotName comma.range.stop comma.range.stop →
            Element.namesUnits behind = false) ∧
          (Element.namesUnits behind = false →
            Reported options source .scanUnitsNotName comma.range.stop comma.range.stop ∨
              Reported options source .nestingTooDeep list.node.range.start list.node.range.stop) := by
  refine ⟨fun fuel s t a hlatest hrun => Grammar.isName_iff_events hlatest hrun, ?_⟩
  intro n hn hkind list comma behind hlist hsplit
  obtain ⟨us, vs, hxs, hcomma, hstop, hnamed, hreported⟩ := Node.exists_units hn hkind hlist hsplit
  constructor
  · intro hreport
    refine Bool.eq_false_iff.2 fun hnames => ?_
    exact not_reported_of_closedName hxs hcomma (hnamed hnames) hstop hreport
  · intro hnot
    exact (hreported hnot).imp_left fun hunits => reported_of_among hxs hcomma hunits hstop.symm

/-- In `SubScan(1, Sec` without a closing parenthesis, the units are reported, and are a bare name.  In front
of a comma, `Sec` counts as one. -/
theorem bare_name_reported :
    (∃ a t, Grammar.argument.run (Script.runRule Grammar.script 4) 4
        (State.initial {} [⟨.ident, "Sec".toList, false⟩, ⟨.comma, ",".toList, false⟩]) = some (a, t) ∧
      a.isName = true) ∧
    ∃ n ∈ (parseWith {} "SubScan(1, Sec\nNextSubScan".toList).tree.nodes 0, n.kind = .subScanStmt ∧
      ∃ (list : View .argList) (comma : Leaf) (behind : List Element), .node list.node ∈ n.elements ∧
        list.node.elements.dropWhile (!·.isLeaf .comma) = .leaf comma :: behind ∧
        (behind.filterMap (·.node?)).map (·.isBareName) = [true] ∧
        Reported {} "SubScan(1, Sec\nNextSubScan".toList .scanUnitsNotName comma.range.stop
          comma.range.stop := by
  obtain ⟨hahead, hunits⟩ := units_told_ahead {} "SubScan(1, Sec\nNextSubScan".toList
  constructor
  · have hresult : (Grammar.argument.run (Script.runRule Grammar.script 4) 4
        (State.initial {} [⟨.ident, "Sec".toList, false⟩, ⟨.comma, ",".toList, false⟩])).map
          (fun p => (p.2.events.toList, p.2.onLine)) =
            some ([.start .identifier none, .token .ident, .finish], some .comma) := by
      decide +kernel
    obtain ⟨⟨a, t⟩, hrun, hboth⟩ := Option.map_eq_some_iff.1 hresult
    obtain ⟨hevents, hnext⟩ := Prod.mk.inj hboth
    exact ⟨a, t, hrun, ((hahead 4 _ t a rfl hrun).2 ⟨hevents, .inl hnext⟩).1⟩
  · have hnodes : ∃ n ∈ (parseWith {} "SubScan(1, Sec\nNextSubScan".toList).tree.nodes 0,
        n.kind = .subScanStmt ∧ ∃ list ∈ n.childNodes.filterMap (View.ofNode? .argList),
          ((list.node.elements.dropWhile (!·.isLeaf .comma)).map (·.isLeaf .comma)).head? = some true ∧
          ((list.node.elements.dropWhile (!·.isLeaf .comma)).tail.filterMap (·.node?)).map (·.isBareName) =
            [true] ∧
          Element.namesUnits (list.node.elements.dropWhile (!·.isLeaf .comma)).tail = false := by
      decide +kernel
    have hroom : ∀ d ∈ (parseWith {} "SubScan(1, Sec\nNextSubScan".toList).diagnostics,
        d.cause ≠ .nestingTooDeep := by
      decide +kernel
    obtain ⟨n, hn, hkind, list, hlist, hcomma, hbare, hnot⟩ := hnodes
    have hmem : .node list.node ∈ n.elements := Node.mem_elements (View.node_mem hlist)
    have hne : list.node.elements.dropWhile (!·.isLeaf .comma) ≠ [] := by
      intro hnil
      rw [hnil] at hcomma
      cases hcomma
    obtain ⟨e, behind, hsplit⟩ := List.exists_cons_of_ne_nil hne
    rw [hsplit] at hcomma hbare hnot
    cases e with
    | node m => cases hcomma
    | leaf comma =>
      obtain ⟨-, hreported⟩ := hunits n hn (.inr hkind) list comma behind hmem hsplit
      refine ⟨n, hn, hkind, list, comma, behind, hmem, hsplit, hbare, (hreported hnot).resolve_right ?_⟩
      rintro ⟨d, hd, hcause, -⟩
      exact hroom d hd hcause

end CRBasic
