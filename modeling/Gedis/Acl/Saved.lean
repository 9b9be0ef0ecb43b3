import Gedis.Acl.File

/-!
# Saving the users and reading them back

A saved line holds the state of a user, its password digest, its rules and its patterns as words, and
each selector in parentheses. The reader takes a parenthesis only as a word of its own, so exactly the
users without selectors are read back.
-/

namespace Gedis.Acl

open Gedis.Core Std List

variable {sel : Selector} {u : User} {name : Bytes}

/-- The digit of a number below sixteen. -/
def hexLow (n : UInt8) : UInt8 := if n < 10 then n + 48 else n + 87

/-- Two digits a byte. -/
def hexEncode (bs : Bytes) : Bytes := bs.flatMap fun b => [hexLow (b / 16), hexLow (b % 16)]

/-- A rule as it is written. -/
def RuleOp.text (r : RuleOp) : Bytes := (if r.allow then 43 else 45) :: r.token

/-- The rules and patterns of a selector as words. -/
def Selector.tokens (sel : Selector) : List Bytes :=
  sel.cmds.map RuleOp.text ++ sel.keys.map (126 :: ·) ++ sel.chans.map (38 :: ·)

/-- A selector as it is written. -/
def Selector.inline (sel : Selector) : Bytes := 40 :: joinFields sel.tokens ++ [41]

/-- The digest as it is written; a user without a password has none. -/
def User.hashText (u : User) : Bytes := if u.hasPass then hexEncode u.passHash else []

/-- The words of a record outside parentheses. -/
def User.tokens (u : User) : List Bytes :=
  (if u.on then ascii "on".toList else ascii "off".toList) ::
    (if u.noPass then [ascii "nopass".toList]
      else if u.hashText ≠ [] then [35 :: u.hashText] else []) ++
    u.rules.map RuleOp.text ++ u.keyPatterns.map (126 :: ·) ++ u.channels.map (38 :: ·)

/-- The line of a user. -/
def describeLine (name : Bytes) (u : User) : Bytes :=
  joinFields (ascii "user".toList :: name :: u.tokens ++ u.selectors.map Selector.inline)

/-- The file of a table, in the order of the names. -/
def save (s : Store) : Bytes := s.toList.flatMap fun e => describeLine e.1 e.2 ++ [10]

theorem hexDigit_hexLow (b : UInt8) :
    hexDigit (hexLow (b / 16)) = some (b / 16) ∧ hexDigit (hexLow (b % 16)) = some (b % 16) ∧
      b / 16 * 16 + b % 16 = b := by
  revert b
  exact forall_byte (by decide +kernel)

theorem hexDecode_hexEncode (bs : Bytes) : hexDecode (hexEncode bs) = some bs := by
  induction bs with
  | nil => rfl
  | cons b bs ih =>
    obtain ⟨hhi, hlo, hsum⟩ := hexDigit_hexLow b
    have hstep : hexEncode (b :: bs) = hexLow (b / 16) :: hexLow (b % 16) :: hexEncode bs := rfl
    rw [hstep, hexDecode, hhi, hlo, ih]
    exact congrArg (fun x => some (x :: bs)) hsum

theorem plain_hexLow (b : UInt8) : Plain (hexLow (b / 16)) ∧ Plain (hexLow (b % 16)) := by
  revert b
  exact forall_byte (by decide +kernel)

theorem solid_hexEncode {bs : Bytes} : Solid (hexEncode bs) := by
  refine solid_of_plain fun c hc => ?_
  obtain ⟨b, -, hmem⟩ := mem_flatMap.mp hc
  obtain ⟨hhi, hlo⟩ := plain_hexLow b
  simp only [mem_cons, not_mem_nil, or_false] at hmem
  rcases hmem with rfl | rfl
  · exact hhi
  · exact hlo

/-- The words of a selector hold no white space. -/
def Selector.Clean (sel : Selector) : Prop := ∀ t ∈ sel.tokens, Solid t

/-- The words of a record hold no white space, and the digest of a password has its full length. -/
structure User.Clean (u : User) : Prop where
  rules : ∀ r ∈ u.rules, Solid r.text
  keys : ∀ k ∈ u.keyPatterns, Solid (126 :: k)
  chans : ∀ c ∈ u.channels, Solid (38 :: c)
  selectors : ∀ sel ∈ u.selectors, sel.Clean
  digest : u.hasPass → u.passHash.length = 32

theorem User.clean_default : User.Clean {} where
  rules := fun _ h => absurd h not_mem_nil
  keys := fun _ h => absurd h not_mem_nil
  chans := fun _ h => absurd h not_mem_nil
  selectors := fun _ h => absurd h not_mem_nil
  digest := fun h => absurd h Bool.false_ne_true

theorem forall_mem_concat {α : Type} {P : α → Prop} {xs : List α} {x : α} (h : ∀ y ∈ xs, P y)
    (hx : P x) : ∀ y ∈ xs ++ [x], P y :=
  forall_mem_append.mpr ⟨h, forall_mem_singleton.mpr hx⟩

theorem Selector.clean_iff :
    sel.Clean ↔ (∀ r ∈ sel.cmds, Solid r.text) ∧ (∀ k ∈ sel.keys, Solid (126 :: k)) ∧
      ∀ c ∈ sel.chans, Solid (38 :: c) := by
  simp only [Selector.Clean, Selector.tokens, forall_mem_append, forall_mem_map, and_assoc]

theorem selectorRule_clean {cur cur' : Selector} {r : Bytes} (hr : Solid r) (h : cur.Clean)
    (hok : selectorRule cur r = .ok cur') : cur'.Clean := by
  obtain ⟨hcmds, hkeys, hchans⟩ := Selector.clean_iff.mp h
  rw [Selector.clean_iff]
  unfold selectorRule at hok
  split at hok
  · cases hok
    exact ⟨forall_mem_concat hcmds hr, hkeys, hchans⟩
  · cases hok
    exact ⟨forall_mem_concat hcmds hr, hkeys, hchans⟩
  · cases hok
    exact ⟨hcmds, forall_mem_concat hkeys hr, hchans⟩
  · cases hok
    exact ⟨hcmds, hkeys, forall_mem_concat hchans hr⟩
  · cases hok

section
variable {lib : Library} (hsha : ∀ pass, (lib.sha256 pass).length = 32)
include hsha

theorem userRule_clean {u' : User} {r : Bytes} (hr : Solid r) (h : u.Clean)
    (hok : userRule lib u r = .ok u') : u'.Clean := by
  unfold userRule at hok
  split at hok
  · cases hok
    exact { h with digest := fun _ => hsha _ }
  · split at hok
    · cases hok
    · split at hok
      · cases hok
      · next hlen =>
        cases hok
        exact { h with digest := fun _ => not_not.mp hlen }
  · cases hok
    exact { h with rules := forall_mem_concat h.rules hr }
  · cases hok
    exact { h with rules := forall_mem_concat h.rules hr }
  · cases hok
    exact { h with keys := forall_mem_concat h.keys hr }
  · cases hok
    exact { h with chans := forall_mem_concat h.chans hr }
  · cases hok

/-- Rules without white space give a clean record. -/
theorem parseRules_clean {rules : List Bytes} (hrules : ∀ r ∈ rules, Solid r) {u' : User}
    {sel : Option Selector} (h : u.Clean) (hsel : ∀ cur ∈ sel, cur.Clean)
    (hok : parseRules lib u sel rules = .ok u') : u'.Clean := by
  induction rules generalizing u sel with
  | nil =>
    rw [parseRules] at hok
    split at hok
    · cases hok
    · cases hok
      exact h
  | cons r rules ih =>
    obtain ⟨hr, hrest⟩ := forall_mem_cons.mp hrules
    have hnone : ∀ cur ∈ (none : Option Selector), cur.Clean := fun _ hcur => by cases hcur
    cases sel with
    | some cur =>
      have hcur := hsel cur rfl
      rw [parseRules] at hok
      split at hok
      · refine ih hrest ?_ hnone hok
        exact ⟨h.rules, h.keys, h.chans, forall_mem_concat h.selectors hcur, h.digest⟩
      · cases hrule : selectorRule cur r with
        | error =>
          rw [hrule] at hok
          cases hok
        | ok =>
          rw [hrule] at hok
          have hcur' := selectorRule_clean hr hcur hrule
          exact ih hrest h (fun c hc => by cases hc; exact hcur') hok
    | none =>
      rw [parseRules] at hok
      split at hok
      · exact ih hrest h (fun c hc => by cases hc; exact fun t ht => absurd ht not_mem_nil) hok
      · split at hok
        · cases hok
        · split at hok
          · refine ih hrest ?_ hnone hok
            exact ⟨h.rules, h.keys, h.chans, h.selectors, h.digest⟩
          · split at hok
            · refine ih hrest ?_ hnone hok
              exact ⟨h.rules, h.keys, h.chans, h.selectors, h.digest⟩
            · split at hok
              · refine ih hrest ?_ hnone hok
                exact ⟨h.rules, h.keys, h.chans, h.selectors, h.digest⟩
              · split at hok
                · exact ih hrest h hnone hok
                · cases hrule : userRule lib u r with
                  | error =>
                    rw [hrule] at hok
                    cases hok
                  | ok =>
                    rw [hrule] at hok
                    exact ih hrest (userRule_clean hsha hr h hrule) hnone hok

end

/-- The names and the rules of a call are words. -/
def Change.Clean : Change → Prop
  | .setUser name rules => (Solid name ∧ name ≠ []) ∧ ∀ r ∈ rules, Solid r ∧ r ≠ []
  | .delUser name => Solid name ∧ name ≠ []

/-- Every user has a word as its name and a clean record. -/
def CleanStore (s : Store) : Prop :=
  ∀ name u, s[name]? = some u → (Solid name ∧ name ≠ []) ∧ u.Clean

theorem cleanStore_new : CleanStore newStore := by
  intro name u hu
  rw [newStore, OrdMap.getElem?_insert] at hu
  split at hu
  · next hname =>
    cases hu
    subst hname
    refine ⟨by decide, { User.clean_default with rules := ?_, digest := ?_ }⟩
    · exact forall_mem_singleton.mpr (by decide)
    · exact fun h => absurd h Bool.false_ne_true
  · simp at hu

section
variable {lib : Library} (hsha : ∀ pass, (lib.sha256 pass).length = 32)
include hsha

/-- A call with clean rules keeps the table clean. -/
theorem apply_clean {s : Store} (h : CleanStore s) {c : Change} (hc : c.Clean) :
    CleanStore (apply lib s c) := by
  cases c with
  | setUser name rules =>
    obtain ⟨hname, hrules⟩ := hc
    rw [apply, Acl.setUser]
    cases hparse : parseRules lib {} none rules with
    | error => exact h
    | ok v =>
      intro a u hu
      rw [OrdMap.getElem?_insert] at hu
      split at hu
      · next ha =>
        cases hu
        subst ha
        refine ⟨hname, parseRules_clean hsha (fun r hr => (hrules r hr).1) User.clean_default ?_ hparse⟩
        exact fun _ hcur => by cases hcur
      · exact h a u hu
  | delUser =>
    rw [apply, Acl.delUser]
    split
    · exact h
    · intro a u hu
      rw [Option.getD_some, OrdMap.getElem?_erase] at hu
      split at hu
      · cases hu
      · exact h a u hu

theorem run_clean {cs : List Change} (hcs : ∀ c ∈ cs, c.Clean) :
    CleanStore (run (apply lib) newStore cs) := by
  induction cs using reverseRecOn with
  | nil => exact cleanStore_new
  | append_singleton cs c ih =>
    obtain ⟨hcs, hc⟩ := forall_mem_append.mp hcs
    rw [run_concat]
    exact apply_clean hsha (ih hcs) (forall_mem_singleton.mp hc)

end

/-- Words with a closing parenthesis at the last one. -/
def closeLast : List Bytes → List Bytes
  | [] => []
  | [t] => [t ++ [41]]
  | t :: t' :: ts => t :: closeLast (t' :: ts)

/-- The words of a selector as it is written. -/
def Selector.pieces (sel : Selector) : List Bytes :=
  match closeLast sel.tokens with
  | [] => [[40, 41]]
  | t :: ts => (40 :: t) :: ts

theorem closeLast_ne_nil {ts : List Bytes} (h : ts ≠ []) : closeLast ts ≠ [] := by
  match ts with
  | [] => exact absurd rfl h
  | [t] | t :: t' :: ts => exact cons_ne_nil _ _

theorem joinFields_closeLast {ts : List Bytes} (h : ts ≠ []) :
    joinFields (closeLast ts) = joinFields ts ++ [41] := by
  match ts with
  | [] => exact absurd rfl h
  | [t] => rfl
  | t :: t' :: ts =>
    rw [closeLast, joinFields_cons (closeLast_ne_nil (cons_ne_nil t' ts)),
      joinFields_closeLast (cons_ne_nil t' ts), joinFields_cons (cons_ne_nil t' ts),
      append_assoc, cons_append]

theorem solid_closeLast {ts : List Bytes} (h : ∀ t ∈ ts, Solid t ∧ t ≠ []) :
    ∀ t ∈ closeLast ts, Solid t ∧ t ≠ [] := by
  match ts with
  | [] => exact h
  | [t] =>
    have ht := h t (mem_cons_self ..)
    refine forall_mem_singleton.mpr ⟨ht.1.concat (by decide) rfl, ?_⟩
    exact append_ne_nil_of_left_ne_nil ht.2 _
  | t :: t' :: ts =>
    obtain ⟨ht, hrest⟩ := forall_mem_cons.mp h
    exact forall_mem_cons.mpr ⟨ht, solid_closeLast hrest⟩

theorem joinFields_glue {c : UInt8} {t : Bytes} {ts : List Bytes} :
    joinFields ((c :: t) :: ts) = c :: joinFields (t :: ts) := by
  cases ts with
  | nil => rfl
  | cons => rfl

theorem Selector.inline_eq : sel.inline = joinFields sel.pieces := by
  rw [Selector.inline, Selector.pieces]
  by_cases h : sel.tokens = []
  · rw [h]
    rfl
  · obtain ⟨t, ts, hts⟩ := exists_cons_of_ne_nil (closeLast_ne_nil h)
    rw [hts]
    rw [joinFields_glue, ← hts, joinFields_closeLast h]
    rfl

theorem Selector.tokens_ne_nil : ∀ t ∈ sel.tokens, t ≠ [] := by
  simp only [Selector.tokens, forall_mem_append, forall_mem_map]
  exact ⟨⟨fun _ _ => cons_ne_nil _ _, fun _ _ => cons_ne_nil _ _⟩,
    fun _ _ => cons_ne_nil _ _⟩

theorem Selector.solid_pieces (h : sel.Clean) : ∀ t ∈ sel.pieces, Solid t ∧ t ≠ [] := by
  have hclosed := solid_closeLast fun t ht => ⟨h t ht, Selector.tokens_ne_nil t ht⟩
  rw [Selector.pieces]
  cases hts : closeLast sel.tokens with
  | nil => exact forall_mem_singleton.mpr (by decide)
  | cons =>
    rw [hts] at hclosed
    obtain ⟨ht, hrest⟩ := forall_mem_cons.mp hclosed
    exact forall_mem_cons.mpr ⟨⟨ht.1.cons (by decide), cons_ne_nil _ _⟩, hrest⟩

/-- The first word of a selector is longer than a parenthesis. -/
theorem Selector.pieces_eq (sel : Selector) : ∃ c t ts, sel.pieces = (40 :: c :: t) :: ts := by
  rw [Selector.pieces]
  cases hts : closeLast sel.tokens with
  | nil => exact ⟨41, [], [], rfl⟩
  | cons t ts =>
    have hne : t ≠ [] := by
      intro hnil
      subst hnil
      match htokens : sel.tokens with
      | [] =>
        rw [htokens] at hts
        cases hts
      | [t] =>
        rw [htokens, closeLast, cons.injEq] at hts
        exact absurd hts.1 (append_ne_nil_of_right_ne_nil t (cons_ne_nil _ _))
      | t :: t' :: rest =>
        rw [htokens, closeLast, cons.injEq] at hts
        exact Selector.tokens_ne_nil t (htokens ▸ mem_cons_self ..) hts.1
    obtain ⟨c, t, rfl⟩ := exists_cons_of_ne_nil hne
    exact ⟨c, t, ts, rfl⟩

/-- The words of the line of a user. -/
def lineWords (name : Bytes) (u : User) : List Bytes :=
  ascii "user".toList :: name :: u.tokens ++ u.selectors.flatMap Selector.pieces

theorem describeLine_eq : describeLine name u = joinFields (lineWords name u) := by
  have hgroups : ∀ ts ∈ (ascii "user".toList :: name :: u.tokens).map ([·]) ++
      u.selectors.map Selector.pieces, ts ≠ [] := by
    rw [forall_mem_append, forall_mem_map, forall_mem_map]
    refine ⟨fun _ _ => cons_ne_nil _ _, fun sel _ => ?_⟩
    obtain ⟨c, t, ts, hpieces⟩ := sel.pieces_eq
    rw [hpieces]
    exact cons_ne_nil _ _
  have hjoin := joinFields_map_join hgroups
  have hinline : (joinFields ∘ Selector.pieces) = Selector.inline := by
    ext1 sel
    exact sel.inline_eq.symm
  have hword : (joinFields ∘ fun t => [t]) = id := rfl
  rw [map_append, map_map, map_map, hinline, hword, map_id, flatten_append,
    ← flatMap_def, ← flatMap_def, flatMap_singleton'] at hjoin
  exact hjoin

theorem User.solid_tokens (h : u.Clean) : ∀ t ∈ u.tokens, Solid t ∧ t ≠ [] := by
  simp only [User.tokens, cons_append, forall_mem_cons, forall_mem_append,
    forall_mem_map]
  refine ⟨?_, ⟨⟨?_, fun r hr => ⟨h.rules r hr, cons_ne_nil _ _⟩⟩,
    fun k hk => ⟨h.keys k hk, cons_ne_nil _ _⟩⟩, fun c hc => ⟨h.chans c hc, cons_ne_nil _ _⟩⟩
  · cases u.on <;> decide
  · split
    · exact forall_mem_singleton.mpr (by decide)
    · split
      · refine forall_mem_singleton.mpr ⟨?_, cons_ne_nil _ _⟩
        have hsolid : Solid u.hashText := by
          rw [User.hashText]
          split
          · exact solid_hexEncode
          · exact solid_nil
        exact hsolid.cons (by decide)
      · exact fun _ ht => absurd ht not_mem_nil

theorem solid_lineWords (hname : Solid name ∧ name ≠ []) (h : u.Clean) :
    ∀ t ∈ lineWords name u, Solid t ∧ t ≠ [] := by
  simp only [lineWords, cons_append, forall_mem_cons, forall_mem_append]
  refine ⟨by decide, hname, User.solid_tokens h, fun t ht => ?_⟩
  obtain ⟨sel, hsel, hmem⟩ := mem_flatMap.mp ht
  exact Selector.solid_pieces (h.selectors sel hsel) t hmem

/-- The record without its selectors, and without a password that is not asked for. -/
def User.saved (u : User) : User :=
  { u with
    passHash := if !u.noPass && u.hasPass then u.passHash else []
    hasPass := !u.noPass && u.hasPass
    selectors := [] }

section
variable (lib : Library)

theorem parseRules_sign (u : User) {c : UInt8} (hc : c ∈ [43, 45, 126, 38, 35]) (t : Bytes)
    (rs : List Bytes) :
    parseRules lib u none ((c :: t) :: rs) =
      userRule lib u (c :: t) >>= fun u => parseRules lib u none rs := by
  simp only [mem_cons, not_mem_nil, or_false] at hc
  rcases hc with rfl | rfl | rfl | rfl | rfl <;> rfl

variable {rs : List Bytes}

theorem parseRules_rules {ops : List RuleOp} : parseRules lib u none (ops.map RuleOp.text ++ rs) =
      parseRules lib { u with rules := u.rules ++ ops } none rs := by
  induction ops generalizing u with
  | nil => rw [append_nil]; rfl
  | cons op ops ih =>
    have hstep : parseRules lib u none ((op :: ops).map RuleOp.text ++ rs) =
        parseRules lib { u with rules := u.rules ++ [op] } none (ops.map RuleOp.text ++ rs) := by
      obtain ⟨allow, token⟩ := op
      cases allow with
      | true => exact parseRules_sign lib u (c := 43) (by decide) token _
      | false => exact parseRules_sign lib u (c := 45) (by decide) token _
    rw [hstep, ih, append_assoc]
    rfl

theorem parseRules_keys (u : User) {keys : List Bytes} :
    parseRules lib u none (keys.map (126 :: ·) ++ rs) =
      parseRules lib { u with keyPatterns := u.keyPatterns ++ keys } none rs := by
  induction keys generalizing u with
  | nil => rw [append_nil]; rfl
  | cons key keys ih =>
    refine (ih _).trans ?_
    rw [append_assoc]
    rfl

theorem parseRules_chans (u : User) {chans : List Bytes} :
    parseRules lib u none (chans.map (38 :: ·) ++ rs) =
      parseRules lib { u with channels := u.channels ++ chans } none rs := by
  induction chans generalizing u with
  | nil => rw [append_nil]; rfl
  | cons chan chans ih =>
    refine (ih _).trans ?_
    rw [append_assoc]
    rfl

theorem userRule_hash {h : Bytes} (hlen : h.length = 32) :
    userRule lib u (35 :: hexEncode h) = .ok { u with passHash := h, hasPass := true } := by
  rw [userRule, hexDecode_hexEncode]
  exact if_neg (not_not.mpr hlen)

theorem parseRules_onOff {on : Bool} :
    parseRules lib u none ((if on then ascii "on".toList else ascii "off".toList) :: rs) =
      parseRules lib { u with on } none rs := by
  cases on with
  | true => rfl
  | false => rfl

/-- The words outside parentheses give the record back. -/
theorem parseRules_tokens (h : u.Clean) :
    parseRules lib {} none (u.tokens ++ rs) = parseRules lib u.saved none rs := by
  have hpass : ∀ rest, parseRules lib { on := u.on } none
      ((if u.noPass then [ascii "nopass".toList]
        else if u.hashText ≠ [] then [35 :: u.hashText] else []) ++ rest) =
      parseRules lib
        { on := u.on
          noPass := u.noPass
          passHash := if !u.noPass && u.hasPass then u.passHash else []
          hasPass := !u.noPass && u.hasPass } none rest := by
    intro rest
    cases hno : u.noPass with
    | true => rfl
    | false =>
      cases hhas : u.hasPass with
      | false => simp [User.hashText, hhas]
      | true =>
        have hlen := h.digest hhas
        have htext : u.hashText = hexEncode u.passHash := by rw [User.hashText, hhas, if_pos rfl]
        have hne : hexEncode u.passHash ≠ [] := by
          intro hnil
          have hback := hexDecode_hexEncode u.passHash
          rw [hnil, hexDecode, Option.some.injEq] at hback
          rw [← hback] at hlen
          cases hlen
        rw [htext, if_neg Bool.false_ne_true, if_pos hne, singleton_append,
          parseRules_sign lib _ (by decide), userRule_hash lib hlen]
        rfl
  rw [User.tokens, cons_append, cons_append, cons_append, cons_append,
    parseRules_onOff, append_assoc, append_assoc, append_assoc, hpass, parseRules_rules,
    parseRules_keys, parseRules_chans]
  rfl

/-- A written selector is no rule. -/
theorem parseRules_pieces {sels : List Selector} (h : sels ≠ []) :
    ∃ e, parseRules lib u none (sels.flatMap Selector.pieces) = .error e := by
  obtain ⟨sel, sels, rfl⟩ := exists_cons_of_ne_nil h
  obtain ⟨c, t, ts, hpieces⟩ := sel.pieces_eq
  rw [flatMap_cons, hpieces]
  exact ⟨.unknownRule (40 :: c :: t), rfl⟩

theorem lineEntry_describe (hname : Solid name ∧ name ≠ []) (h : u.Clean) :
    lineEntry lib (describeLine name u) =
      ((parseRules lib u.saved none (u.selectors.flatMap Selector.pieces)).mapError .rule).map
        fun v => some (name, v) := by
  have hsolid := solid_lineWords hname h
  have htrim := trimSpace_join hsolid
  have hfields := splitFields_join hsolid
  have hparse : parseLine (joinFields (lineWords name u)) =
      .ok (name, u.tokens ++ u.selectors.flatMap Selector.pieces) := by
    rw [parseLine, hfields]
    rfl
  have hfront : ¬ (joinFields (lineWords name u) = [] ∨
      (joinFields (lineWords name u)).head? = some 35) := by
    rintro (hnil | hhead)
    · cases hnil
    · cases hhead
  rw [describeLine_eq, lineEntry, htrim, if_neg hfront, hparse]
  dsimp only
  rw [parseRules_tokens lib h]
  cases parseRules lib u.saved none (u.selectors.flatMap Selector.pieces) with
  | error => rfl
  | ok => rfl

theorem loadLines_none_iff (s : Store) (n : Nat) {lines : List Bytes} :
    (loadLines lib s n lines).2 = none ↔ ∀ line ∈ lines, ∃ e, lineEntry lib line = .ok e := by
  induction lines generalizing s n with
  | nil => exact ⟨fun _ _ h => absurd h not_mem_nil, fun _ => rfl⟩
  | cons line lines ih =>
    rw [loadLines, loadLine_eq, forall_mem_cons]
    cases lineEntry lib line with
    | error => exact ⟨fun h => (by cases h), fun h => (by obtain ⟨⟨_, h⟩, _⟩ := h; cases h)⟩
    | ok e =>
      refine (ih _ (n + 1)).trans ⟨fun h => ⟨⟨e, rfl⟩, h⟩, fun h => h.2⟩

end

section
variable {lib : Library} {s : Store}

theorem splitLines_save (h : CleanStore s) :
    splitLines (save s) = s.toList.map (fun e => describeLine e.1 e.2) ++ [[]] := by
  refine splitLines_flatMap fun e he => ?_
  have hget : s[e.1]? = some e.2 := ExtTreeMap.mem_toList_iff_getElem?_eq_some.mp he
  obtain ⟨hname, hclean⟩ := h e.1 e.2 hget
  rw [describeLine_eq]
  exact lineFeed_not_mem_join fun t ht => (solid_lineWords hname hclean t ht).1

/-- Reading succeeds exactly when no user has a selector. -/
theorem load_save_none_iff (h : CleanStore s) :
    (load lib newStore (some (save s))).2 = none ↔
      ∀ (name : Bytes) (u : User), s[name]? = some u → u.selectors = [] := by
  rw [load, splitLines_save h, loadLines_none_iff, forall_mem_append, forall_mem_map]
  constructor
  · rintro ⟨hlines, -⟩ name u hu
    by_contra hsel
    obtain ⟨hname, hclean⟩ := h name u hu
    obtain ⟨e, he⟩ := hlines (name, u) (ExtTreeMap.mem_toList_iff_getElem?_eq_some.mpr hu)
    obtain ⟨err, herr⟩ := parseRules_pieces lib hsel
    rw [lineEntry_describe lib hname hclean, herr] at he
    cases he
  · intro hsel
    refine ⟨fun e he => ?_, forall_mem_singleton.mpr ⟨none, rfl⟩⟩
    have hget : s[e.1]? = some e.2 := ExtTreeMap.mem_toList_iff_getElem?_eq_some.mp he
    obtain ⟨hname, hclean⟩ := h e.1 e.2 hget
    rw [lineEntry_describe lib hname hclean, hsel e.1 e.2 hget]
    exact ⟨_, rfl⟩

/-- Without selectors the file gives each user its saved record. -/
theorem fileEntries_save (h : CleanStore s)
    (hsel : ∀ (name : Bytes) (u : User), s[name]? = some u → u.selectors = []) :
    fileEntries lib (some (save s)) = s.toList.map fun e => (e.1, e.2.saved) := by
  have hentries : ∀ es : List (Bytes × User), (∀ e ∈ es, s[e.1]? = some e.2) →
      lineEntries lib (es.map (fun e => describeLine e.1 e.2) ++ [[]]) =
        es.map fun e => (e.1, e.2.saved) := by
    intro es hes
    induction es with
    | nil => rfl
    | cons e es ih =>
      obtain ⟨hget, hrest⟩ := forall_mem_cons.mp hes
      obtain ⟨hname, hclean⟩ := h e.1 e.2 hget
      rw [map_cons, cons_append, lineEntries, lineEntry_describe lib hname hclean,
        hsel e.1 e.2 hget]
      exact congrArg _ (ih hrest)
  rw [fileEntries, splitLines_save h]
  exact hentries _ fun e he => ExtTreeMap.mem_toList_iff_getElem?_eq_some.mp he

theorem lastEntry_save (hu : s[name]? = some u) :
    lastEntry (s.toList.map fun e => (e.1, e.2.saved)) name = some u.saved := by
  have hmem := ExtTreeMap.mem_toList_iff_getElem?_eq_some.mpr hu
  have hnamed : Names (s.toList.map fun e => (e.1, e.2.saved)) name := by
    rw [Names, map_map]
    exact mem_map.mpr ⟨(name, u), hmem, rfl⟩
  obtain ⟨v, hv⟩ := Option.isSome_iff_exists.mp (names_iff.mp hnamed)
  -- a table has one record a name, so the last one is this one
  obtain ⟨e, hfind, rfl⟩ := Option.map_eq_some_iff.mp hv
  have hname : e.1 = name := by simpa using find?_some hfind
  obtain ⟨⟨a, w⟩, hw, rfl⟩ := mem_map.mp (mem_reverse.mp (mem_of_find?_eq_some hfind))
  have hget : s[a]? = some w := ExtTreeMap.mem_toList_iff_getElem?_eq_some.mp hw
  dsimp only at hname
  rw [hname, hu, Option.some.injEq] at hget
  rw [hv, hget]

theorem User.accepts_saved (u : User) {pass : Bytes} :
    u.saved.accepts lib pass = u.accepts lib pass := by
  rw [User.accepts, User.accepts, User.saved]
  cases u.noPass with
  | true => rw [Bool.true_or, Bool.true_or]
  | false =>
    cases u.hasPass with
    | true => rfl
    | false => rfl

theorem User.check_saved (h : u.selectors = []) {name cmd : Bytes} {keys channels : List Bytes} :
    u.saved.check lib name cmd keys channels = u.check lib name cmd keys channels := by
  rw [User.check, User.check, User.saved, h]

/-- The file of a table is read into a new table without an error, and every user of the table
authenticates and is checked there as before. -/
def Restores (lib : Library) (s : Store) : Prop :=
  ∃ s', load lib newStore (some (save s)) = (s', none) ∧
    ∀ name ∈ s, (∀ pass, authenticate lib s' name pass = authenticate lib s name pass) ∧
      ∀ cmd keys channels, check lib s' name cmd keys channels = check lib s name cmd keys channels

/-- A table built by calls without white space is restored exactly when no user of it has a
selector. -/
theorem restores_iff (lib : Library) (hsha : ∀ pass, (lib.sha256 pass).length = 32)
    (cs : List Change) (hcs : ∀ c ∈ cs, c.Clean) :
    Restores lib (run (apply lib) newStore cs) ↔
      ∀ (name : Bytes) (u : User), (run (apply lib) newStore cs)[name]? = some u → u.selectors = [] := by
  have hclean := run_clean hsha hcs
  revert hclean
  generalize run (apply lib) newStore cs = s
  intro hclean
  constructor
  · rintro ⟨s', hload, -⟩
    exact (load_save_none_iff hclean).mp (congrArg Prod.snd hload)
  · intro hsel
    have hnone : (load lib newStore (some (save s))).2 = none := (load_save_none_iff hclean).mpr hsel
    refine ⟨_, Prod.ext rfl hnone, fun name hmem => ?_⟩
    obtain ⟨u, hu⟩ := Option.isSome_iff_exists.mp (ExtTreeMap.mem_iff_isSome_getElem?.mp hmem)
    have hback : (load lib newStore (some (save s))).1[name]? = some u.saved := by
      rw [load_fst, getElem?_insertAll, fileEntries_save hclean hsel, lastEntry_save hu]
      rfl
    refine ⟨fun pass => ?_, fun cmd keys channels => ?_⟩
    · rw [authenticate, authenticate, hback, hu]
      exact u.accepts_saved
    · rw [check, check, hback, hu]
      exact congrArg _ (User.check_saved (hsel name u hu))

end

/-- A digest of 32 bytes, and names as patterns. -/
def zeroDigest : Library := { exactNames with sha256 := fun _ => List.replicate 32 0 }

/-- The rules `on >p +get ~k` for a user. -/
def plainRules : List Bytes := [ascii "on".toList, [62, 112], ascii "+get".toList, [126, 107]]

/-- A user with a password, a command and a key is restored. -/
theorem restores_plain :
    Restores zeroDigest (run (apply zeroDigest) newStore [.setUser bob plainRules]) := by
  refine (restores_iff zeroDigest (fun _ => rfl) _ ?_).mpr fun name u hu => ?_
  · refine forall_mem_singleton.mpr ⟨by decide, ?_⟩
    decide +kernel
  · have hall : ∀ e ∈ (run (apply zeroDigest) newStore [.setUser bob plainRules]).toList,
        e.2.selectors = [] := by decide +kernel
    exact hall (name, u) (ExtTreeMap.mem_toList_iff_getElem?_eq_some.mpr hu)

/-- The rules `on ( +get )` are written as `on (+get)`, and that line is refused. -/
theorem selector_not_restored :
    (∀ c ∈ [Change.setUser bob [ascii "on".toList, [40], ascii "+get".toList, [41]]], c.Clean) ∧
    (load zeroDigest newStore (some (save (run (apply zeroDigest) newStore
      [.setUser bob [ascii "on".toList, [40], ascii "+get".toList, [41]]])))).2 =
        some (.line 1 (.rule (.unknownRule (ascii "(+get)".toList)))) ∧
    ¬ Restores zeroDigest (run (apply zeroDigest) newStore
      [.setUser bob [ascii "on".toList, [40], ascii "+get".toList, [41]]]) := by
  have hload : (load zeroDigest newStore (some (save (run (apply zeroDigest) newStore
      [.setUser bob [ascii "on".toList, [40], ascii "+get".toList, [41]]])))).2 =
        some (.line 1 (.rule (.unknownRule (ascii "(+get)".toList)))) := by decide +kernel
  refine ⟨?_, hload, ?_⟩
  · refine forall_mem_singleton.mpr ⟨by decide, ?_⟩
    decide +kernel
  · rintro ⟨s', hs', -⟩
    rw [hs'] at hload
    cases hload

end Gedis.Acl
