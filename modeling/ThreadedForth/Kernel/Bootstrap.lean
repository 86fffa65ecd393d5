/-!
# Bootstrap

The words of the language that are written in the language. The words of control flow compile a
branch and, after it, a cell with the distance from that cell to where the branch leads; a distance
that is not known yet is filled in by the word that closes the structure.
-/

namespace ThreadedForth.Kernel

/-- The definitions of the words that every session starts with. -/
def bootstrap : List String :=
  ["",
    ": LITERAL IMMEDIATE ['] LIT , , ;",
    ": RECURSE IMMEDIATE LATEST >CFA , ;",
    "",
    "\\ ( -- addr ) leaves the offset cell to patch",
    ": IF IMMEDIATE ['] 0BRANCH , HERE 0 , ;",
    ": THEN IMMEDIATE DUP HERE SWAP - SWAP ! ;",
    ": ELSE IMMEDIATE DUP HERE SWAP - 2 + SWAP ! ['] BRANCH , HERE 0 , ;",
    "",
    ": BEGIN IMMEDIATE HERE ;",
    ": UNTIL IMMEDIATE ['] 0BRANCH , HERE - , ;",
    ": AGAIN IMMEDIATE ['] BRANCH , HERE - , ;",
    ": WHILE IMMEDIATE ['] 0BRANCH , HERE 0 , ;",
    ": REPEAT IMMEDIATE ['] BRANCH , SWAP HERE - , DUP HERE SWAP - SWAP ! ;",
    "",
    ": VARIABLE ( <name> -- ) WORD CREATE DOVAR, 0 , ;",
    ": CONSTANT ( n <name> -- ) WORD CREATE DOCOL, ['] LIT , , ['] EXIT , ;",
    "",
    ": SPACE 32 EMIT ;",
    ": CR 10 EMIT ;",
    ": SPACES ( n -- ) BEGIN DUP 0> WHILE SPACE 1- REPEAT DROP ;",
    ": ? ( addr -- ) @ . ;"]

end ThreadedForth.Kernel
