/-
The request machine in parts: the expressions that the rules of the request line compile to, with the numbers of their
embeddings.
-/
import ServerFrame.Http.Session
import ServerFrame.Lib.Words

namespace ServerFrame.Http

open Ragel

namespace Grammar

/-! ## Rules without embeddings -/

section Silent

variable (relaxed : Bool)

theorem silent_h16s (k : Nat) : (h16s k).Silent := fun _ => rfl

theorem silent_byteGroup (k : Nat) : (byteGroup k).Silent := fun _ => rfl

theorem silent_ipv6address : ipv6address.Silent := by
  have h16' : h16.Silent := fun _ => rfl
  have ls32' : ls32.Silent := fun _ => rfl
  refine Rule.silent_oneOf ?_
  simp only [List.forall_mem_cons, List.not_mem_nil, false_imp_iff, implies_true, and_true]
  refine ⟨?_, ?_, ?_, ?_, ?_, ?_, ?_, ?_, ?_⟩ <;>
    exact Rule.silent_cat (by simp [h16', ls32', silent_h16s, silent_byteGroup])

theorem silent_host : (host relaxed).Silent := by
  have hv4 : ipv4address.Silent := fun _ => rfl
  have hfuture : (ipvFuture relaxed).Silent := fun _ => rfl
  have hname : (regName relaxed).Silent := fun _ => rfl
  have hliteral : (ipLiteral relaxed).Silent := by
    have hinner : (oneOf [ipv6address, ipvFuture relaxed]).Silent := by simp [silent_ipv6address, hfuture]
    exact Rule.silent_cat (by simp [hinner])
  exact Rule.silent_oneOf (by simp [hv4, hname, hliteral])

theorem silent_relativePart : (relativePart relaxed).Silent := by
  have huser : (opt (cat [userinfo relaxed, lit "@"])).Silent := fun _ => rfl
  have hport : (opt (cat [lit ":", port])).Silent := fun _ => rfl
  have hauthority : (authority relaxed).Silent := Rule.silent_cat (by simp [huser, hport, silent_host])
  have habempty : (pathAbempty relaxed).Silent := fun _ => rfl
  have habsolute : (pathAbsolute relaxed).Silent := fun _ => rfl
  have hnoscheme : (pathNoscheme relaxed).Silent := fun _ => rfl
  have hempty : (pathEmpty relaxed).Silent := fun _ => rfl
  have hnet : (cat [lit "//", authority relaxed, pathAbempty relaxed]).Silent :=
    Rule.silent_cat (by simp [hauthority, habempty])
  exact Rule.silent_oneOf (by simp [hnet, habsolute, hnoscheme, hempty])

end Silent

/-! ## The request line in parts -/

/-- One embedding. -/
def embedding (n : Nat) (a : Action) : Label Action := ⟨[(n, a)], []⟩

def methodE : Expr Action := (method 0).1

def spaceE : Expr Action := .char (.byte 32)

def versionE : Expr Action := (httpVersion 16).1

def headerE : Expr Action := (messageHeader 18).1

def crlfE : Expr Action := (crlf 0).1

section Parts

variable (relaxed : Bool)

def uriE : Expr Action := (uriReference relaxed 2).1

def socketE : Expr Action := (socketRequest relaxed 23).1

def relativeE : Expr Action := (relativePart relaxed 0).1

/-- The characters of a query, and of a fragment. -/
def wordE : Expr Action := (many (oneOf [pchar relaxed, lit "/", lit "?"]) 0).1

/-- What follows the URI. -/
def afterUri : List (Expr Action) := [spaceE, versionE, crlfE, .star headerE, crlfE]

set_option maxRecDepth 100000 in
/-- The machine starts in the method, or in a message of the socket protocol. -/
theorem main_start : (main relaxed).start =
    [.finishing (embedding 32 .done)
      (.alt ((spaceE :: uriE relaxed :: afterUri).foldl Expr.andThen methodE) (socketE relaxed))] := by
  have huri : (uriReference relaxed 2).2 = 16 := by cases relaxed <;> decide
  have hsocket : (socketRequest relaxed 23).2 = 32 := by cases relaxed <;> decide
  have hm : method 0 = (methodE, 2) := rfl
  have hs : ∀ n, (lit " " n : Expr Action × Nat) = (spaceE, n) := fun _ => rfl
  have hu : uriReference relaxed 2 = (uriE relaxed, 16) := by
    rw [← huri]
    rfl
  have hk : socketRequest relaxed 23 = (socketE relaxed, 32) := by
    rw [← hsocket]
    rfl
  have hv : httpVersion 16 = (versionE, 18) := rfl
  have hh : many messageHeader 18 = (.star headerE, 23) := rfl
  have hc : ∀ n, crlf n = (crlfE, n) := fun _ => rfl
  have hline : requestLine relaxed 0 =
      ([spaceE, uriE relaxed, spaceE, versionE, crlfE].foldl Expr.andThen methodE, 18) := by
    simp only [requestLine, cat, List.foldl, Rule.both, hm, hs, hu, hv, hc]
    rfl
  have hreq : request relaxed 0 = ((spaceE :: uriE relaxed :: afterUri).foldl Expr.andThen methodE, 23) := by
    simp only [request, cat, List.foldl, Rule.both, hline, hh, hc]
    rfl
  simp only [main, finishing, Rule.numbered, oneOf, List.foldl, Rule.both, Rule.start, hreq, hk]
  rfl

/-! ## The URI in parts -/

/-- `( "?" %start_query query )?`. -/
def queryE : Expr Action :=
  .alt (.seq (.leaving (embedding 11 .startQuery) (.char (.byte 63)))
    (.leaving (embedding 12 .queryString) (wordE relaxed)))
    .eps

/-- `( "#" fragment )?`. -/
def fragmentE : Expr Action :=
  .alt (.seq (.char (.byte 35))
    (.leaving (embedding 15 .fragment) (.entering (embedding 14 .mark) (wordE relaxed)))) .eps

/-- The hierarchical part of a URI with a scheme. -/
def hierE : Expr Action := (target relaxed (hierPart relaxed) 2).1

def hierFragmentE : Expr Action :=
  (opt (cat [lit "#", fragment relaxed]) (target relaxed (hierPart relaxed) 2).2).1

set_option maxRecDepth 100000 in
/-- The URI is one with a scheme or a relative one. -/
theorem uriE_eq : uriE relaxed =
    .alt (.seq (.seq (.seq (scheme 0).1 (.char (.byte 58))) (hierE relaxed)) (hierFragmentE relaxed))
      (.seq
        (.leaving (embedding 13 .requestUri) (.entering (embedding 9 .mark)
          (.seq (.leaving (embedding 10 .requestPath) (relativeE relaxed)) (queryE relaxed))))
        (fragmentE relaxed)) := by
  have hstart : (uri relaxed 2).2 = 9 := by cases relaxed <;> decide
  have hpart : relativePart relaxed 10 = (relativeE relaxed, 10) := silent_relativePart relaxed 10
  have htarget : target relaxed (relativePart relaxed) 9 = (.leaving (embedding 13 .requestUri)
      (.entering (embedding 9 .mark)
        (.seq (.leaving (embedding 10 .requestPath) (relativeE relaxed)) (queryE relaxed))), 14) := by
    simp only [target, leaving, entering, Rule.numbered, cat, List.foldl, Rule.both, hpart]
    rfl
  have href : (relativeRef relaxed 9).1 = .seq (target relaxed (relativePart relaxed) 9).1 (fragmentE relaxed) := by
    simp only [relativeRef, cat, List.foldl, Rule.both, htarget]
    rfl
  show Expr.alt (uri relaxed 2).1 (relativeRef relaxed (uri relaxed 2).2).1 = _
  rw [hstart, href, htarget]
  rfl

end Parts

end Grammar

end ServerFrame.Http
