/-!
# The prelude

Words that are defined in the language itself when a machine starts.
-/

namespace ThreadedForth

def preludeText : String :=
"32 constant bl
: space ( -- ) bl emit ;
: spaces ( n -- ) begin dup 0> while space 1- repeat drop ;

: 2constant ( d <name> -- ) create , , does> 2@ ;
: 2variable ( <name> -- ) create 0 , 0 , ;

: /string ( a u n -- a+n u-n ) rot over + -rot - ;
: on ( a -- ) true swap ! ;
: off ( a -- ) false swap ! ;
: ? ( a -- ) @ . ;
: u> ( u1 u2 -- f ) swap u< ;
: d0< ( d -- f ) nip 0< ;
: 2nip ( a b c d -- c d ) 2swap 2drop ;
"

end ThreadedForth
