import Mathlib.Data.List.Induction
import Mathlib.Data.List.TakeWhile
import FormulaGraph.Namespaces
import FormulaGraph.Proofs.Table

/-! Full forms of identifiers. Where every namespace has a slash, a full form is no prefixed identifier
and extends to itself; then a short form stands for the same identifier. -/
namespace FormulaGraph

theorem Text.mem_dropFinalLineFeed {c : Char} {cs : List Char} (h : c ∈ cs) (hc : c ≠ '\n') :
    c ∈ dropFinalLineFeed cs := by
  unfold dropFinalLineFeed
  split
  · rename_i hlast
    have hne : cs ≠ [] := List.ne_nil_of_mem h
    have hget : cs.getLast hne = '\n' := by
      rwa [List.getLast?_eq_some_getLast hne, Option.some.injEq] at hlast
    rw [← List.dropLast_append_getLast hne, hget] at h
    simpa [hc] using h
  · exact h

namespace Namespaces

theorem mem_of_isPrefixName {cs : List Char} (h : isPrefixName cs = true) {c : Char} (hc : c ∈ cs) :
    (c.isAlpha || Text.isWord c || c == '-' || c == '.') = true := by
  cases cs with
  | nil => contradiction
  | cons d rest =>
    obtain ⟨hd, hrest⟩ := Bool.and_eq_true_iff.1 h
    rcases List.mem_cons.1 hc with rfl | hc
    · simp [hd]
    · have hword := List.all_eq_true.1 hrest c hc
      rw [Bool.or_assoc, Bool.or_assoc, ← Bool.or_assoc (Text.isWord c), hword, Bool.or_true]

theorem splitPrefixed?_eq_some {cs name rest : List Char} (h : splitPrefixed? cs = some (name, rest)) :
    ∃ tail, cs = name ++ ':' :: tail ∧ rest = Text.dropFinalLineFeed tail ∧
      isPrefixName name = true ∧ rest.all isLocalChar = true := by
  unfold splitPrefixed? at h
  dsimp only at h
  split at h
  · contradiction
  · rename_i c tail hd
    split at h
    · rename_i hall
      obtain ⟨rfl, rfl⟩ := Prod.mk.inj (Option.some.inj h)
      obtain ⟨hname, hrest⟩ := Bool.and_eq_true_iff.1 hall
      have hcolon : c = ':' := by
        have hhead := List.head?_dropWhile_not (· != ':') cs
        simpa [hd] using hhead
      refine ⟨tail, ?_, rfl, hname, hrest⟩
      conv_lhs => rw [← List.takeWhile_append_dropWhile (p := (· != ':')) (l := cs), hd, hcolon]
    · contradiction

/-- What holds a slash is no prefixed identifier. -/
theorem splitPrefixed?_of_slash {cs : List Char} (h : '/' ∈ cs) : splitPrefixed? cs = none := by
  cases hs : splitPrefixed? cs with
  | none => rfl
  | some parts =>
    obtain ⟨name, rest⟩ := parts
    obtain ⟨tail, rfl, rfl, hname, hrest⟩ := splitPrefixed?_eq_some hs
    have hcases : '/' ∈ name ∨ '/' ∈ tail := by simpa using h
    rcases hcases with hmem | hmem
    · exact absurd (mem_of_isPrefixName hname hmem) (by decide)
    · have hlocal := List.all_eq_true.1 hrest _ (Text.mem_dropFinalLineFeed hmem (by decide))
      exact absurd hlocal (by decide)

variable {ns : Namespaces} {identifier : String}

theorem extend_of_slash (h : '/' ∈ identifier.toList) : ns.extend identifier = identifier := by
  rw [extend, splitPrefixed?_of_slash h]

/-- An identifier that is not its own full form has a namespace in front. -/
theorem extend_eq_self_or (ns : Namespaces) (identifier : String) :
    ns.extend identifier = identifier ∨
      ∃ entry ∈ ns.table.entries, ∃ rest, ns.extend identifier = entry.2 ++ rest := by
  unfold extend
  split
  · exact Or.inl rfl
  · split
    · exact Or.inl rfl
    · rename_i name rest _ _ uri hg
      exact Or.inr ⟨_, Table.get?_eq_some_iff.1 hg, String.ofList rest, rfl⟩

theorem splitPrefixed?_append {name rest : List Char} (hname : isPrefixName name = true)
    (hrest : rest.all isLocalChar = true) :
    splitPrefixed? (name ++ ':' :: rest) = some (name, rest) := by
  have hcolon : ∀ c ∈ name, (c != ':') = true := by
    intro c hc
    rw [bne_iff_ne]
    rintro rfl
    exact absurd (mem_of_isPrefixName hname hc) (by decide)
  have hfeed : Text.dropFinalLineFeed rest = rest := by
    refine if_neg fun hlast => ?_
    exact absurd (List.all_eq_true.1 hrest _ (List.mem_of_getLast? hlast)) (by decide)
  unfold splitPrefixed?
  rw [List.takeWhile_append_of_pos hcolon, List.dropWhile_append_of_pos hcolon,
    List.takeWhile_cons_of_neg (by decide), List.dropWhile_cons_of_neg (by decide)]
  simp [hfeed, hname, hrest]

theorem extend_prefixed {name uri rest : String} (hget : ns.table.get? name = some uri)
    (hname : isPrefixName name.toList = true) (hrest : rest.toList.all isLocalChar = true) :
    ns.extend (name ++ ":" ++ rest) = uri ++ rest := by
  have hlist : (name ++ ":" ++ rest).toList = name.toList ++ ':' :: rest.toList := by
    simp [String.toList_append]
  rw [extend, hlist, splitPrefixed?_append hname hrest]
  simp [hget]

theorem extend_shorten (h : ns.extend identifier = identifier) :
    ns.extend (ns.shorten identifier) = identifier := by
  unfold shorten
  split
  · exact h
  · dsimp only
    split
    · assumption
    · exact h

/-- Where full forms extend to themselves, an identifier and its short form stand for the same. -/
theorem extend_shorten_eq (hidem : ∀ x, ns.extend (ns.extend x) = ns.extend x)
    (identifier : String) : ns.extend (ns.shorten identifier) = ns.extend identifier := by
  unfold shorten
  split
  · rfl
  · rename_i name uri _
    dsimp only
    split
    · rename_i hback
      generalize name ++ ":" ++ String.ofList (identifier.toList.drop uri.length) = short at hback ⊢
      -- What a short form stands for is a full form.
      rw [← hback, hidem]
    · rfl

/-- Full forms extend to themselves if every namespace has a slash. -/
theorem extend_extend (hslash : ∀ entry ∈ ns.table.entries, '/' ∈ entry.2.toList)
    (identifier : String) : ns.extend (ns.extend identifier) = ns.extend identifier := by
  rcases ns.extend_eq_self_or identifier with hself | ⟨entry, hentry, rest, heq⟩
  · rw [hself, hself]
  · rw [heq]
    refine extend_of_slash ?_
    rw [String.toList_append]
    exact List.mem_append_left _ (hslash entry hentry)

theorem standard_extend_extend (identifier : String) :
    standard.extend (standard.extend identifier) = standard.extend identifier :=
  extend_extend (by decide +kernel) identifier

end Namespaces
end FormulaGraph
